import TexLint.Proofs.Document.Usages
import TexLint.Proofs.Source.Form
import TexLint.Proofs.Source.Lossless

/-!
# Usages and control sequences

However malformed a source is, none of its control sequences is hidden: each is used as the command,
the beginning or the end that it is.

## The model

* `Token.starts?` says which kind of node a control sequence starts.
* `Visit.head?` is the control sequence that a visited node of a given kind starts with.
* A `Beginning` is a control sequence that begins an environment with the parameters that are glued
  to it; `Beginning.IsGlued` says that these are all the parameters there are.

## What is proved

* `filterMap_head?_preorder`: on the way through a tree, the nodes of a kind start with the control
  sequences of their sort, one after the other.
* `filterMap_usageSpan?_preorder`: the environments that are used are the beginnings with a required
  parameter.
* `Document.usages_read`: the usages of a document are its control sequences.
-/

namespace TexLint

open SyntaxTree

/-! ### Control sequences start nodes -/

namespace Token

/-- The kind of node that a control sequence starts. -/
def starts? (t : Token) : Option NodeKind :=
  if t.isBegin then some .opening
  else if t.isEnd then some .closing
  else if t.kind = .command then some .command
  else none

variable {t : Token}

theorem starts?_of_isBegin (h : t.isBegin = true) : t.starts? = some .opening := by
  simp [starts?, h]

theorem starts?_of_isEnd (h : t.isEnd = true) : t.starts? = some .closing := by
  have hbegin : t.isBegin = false := by
    cases hbegin : t.isBegin with
    | true => simp [isEnd_of_isBegin hbegin] at h
    | false => rfl
  simp [starts?, hbegin, h]

theorem starts?_of_isOrdinary (h : t.IsOrdinary) : t.starts? = some .command := by
  obtain ⟨hkind, hbegin, hend⟩ := h
  simp [starts?, hkind, hbegin, hend]

/-- A token begins an environment, ends one, is another control sequence or is none. -/
theorem starts?_cases (t : Token) : t.isBegin = true ∧ t.starts? = some .opening ∨
    t.isEnd = true ∧ t.starts? = some .closing ∨ t.IsOrdinary ∧ t.starts? = some .command ∨
      t.kind ≠ .command ∧ t.starts? = none := by
  by_cases hbegin : t.isBegin = true
  · exact .inl ⟨hbegin, starts?_of_isBegin hbegin⟩
  · by_cases hend : t.isEnd = true
    · exact .inr (.inl ⟨hend, starts?_of_isEnd hend⟩)
    · by_cases hkind : t.kind = .command
      · have ht : t.IsOrdinary := ⟨hkind, by simpa using hbegin, by simpa using hend⟩
        exact .inr (.inr (.inl ⟨ht, starts?_of_isOrdinary ht⟩))
      · exact .inr (.inr (.inr ⟨hkind, by simp [starts?, hbegin, hend, hkind]⟩))

theorem starts?_eq_some_opening_iff : t.starts? = some .opening ↔ t.isBegin = true := by
  refine ⟨fun h => ?_, starts?_of_isBegin⟩
  rcases t.starts?_cases with ⟨ht, -⟩ | ⟨-, hs⟩ | ⟨-, hs⟩ | ⟨-, hs⟩
  · exact ht
  · simp [hs] at h
  · simp [hs] at h
  · simp [hs] at h

theorem starts?_eq_some_command_iff : t.starts? = some .command ↔ t.IsOrdinary := by
  refine ⟨fun h => ?_, starts?_of_isOrdinary⟩
  rcases t.starts?_cases with ⟨-, hs⟩ | ⟨-, hs⟩ | ⟨ht, -⟩ | ⟨-, hs⟩
  · simp [hs] at h
  · simp [hs] at h
  · exact ht
  · simp [hs] at h

theorem starts?_ne_environment : t.starts? ≠ some .environment := by
  intro h
  rcases t.starts?_cases with ⟨-, hs⟩ | ⟨-, hs⟩ | ⟨-, hs⟩ | ⟨-, hs⟩ <;> simp [hs] at h

theorem kind_of_starts? {kind : NodeKind} (h : t.starts? = some kind) : t.kind = .command := by
  rcases t.starts?_cases with ⟨ht, -⟩ | ⟨ht, -⟩ | ⟨ht, -⟩ | ⟨-, hs⟩
  · exact kind_of_isBegin ht
  · exact kind_of_isEnd ht
  · exact ht.1
  · simp [hs] at h

theorem starts?_of_ne (h : t.kind ≠ .command) : t.starts? = none := by
  cases hstarts : t.starts? with
  | none => rfl
  | some kind => exact absurd (kind_of_starts? hstarts) h

end Token

namespace SyntaxTree

/-- A tree is neither a control sequence by itself nor the beginning of an environment. -/
def IsInner (tree : SyntaxTree) : Prop :=
  tree.isToken .command = false ∧ tree.isNode .opening = false

variable {tree : SyntaxTree} {kind : NodeKind}

theorem isInner_leaf {t : Token} (h : t.kind ≠ .command) : (leaf t).IsInner :=
  ⟨by simp [isToken, h], rfl⟩

theorem MayStandIn.isInner (h : tree.MayStandIn kind) : tree.IsInner := by
  cases tree with
  | leaf t => exact isInner_leaf h.1.1
  | node k children =>
    cases k with
    | root | required | optional | opening => cases h
    | group | command | environment | closing | error => exact ⟨rfl, rfl⟩

theorem IsParameter.isInner {takesOptional : Bool} (h : tree.IsParameter takesOptional) :
    tree.IsInner := by
  rcases h with h | ⟨-, h⟩
  · obtain ⟨children, rfl⟩ := exists_of_isNode h
    exact ⟨rfl, rfl⟩
  · obtain ⟨children, rfl⟩ := exists_of_isNode h
    exact ⟨rfl, rfl⟩

end SyntaxTree

/-- A node starts with a control sequence of its sort or with the beginning of an environment, or it
starts with neither. Neither stands anywhere else in it. -/
theorem Form.start {kind : NodeKind} {children : List SyntaxTree} {behind : List Token}
    (h : Form kind children behind) :
    (∃ t rest, children = .leaf t :: rest ∧ t.starts? = some kind ∧ ∀ c ∈ rest, c.IsInner) ∨
      (∃ parts rest, kind = .environment ∧ children = .node .opening parts :: rest ∧
        ∀ c ∈ rest, c.IsInner) ∨
      (kind ≠ .environment ∧ kind ≠ .opening) ∧ ∀ c ∈ children, c.IsInner := by
  have hcontent {k : NodeKind} {content : List SyntaxTree} (h : ∀ c ∈ content, c.MayStandIn k) :
      ∀ c ∈ content, c.IsInner := fun c hc => (h c hc).isInner
  have hdelimited {l : Token} {k : NodeKind} {content : List SyntaxTree} (hl : l.kind ≠ .command)
      (h : ∀ c ∈ content, c.MayStandIn k) : ∀ c ∈ SyntaxTree.leaf l :: content, c.IsInner :=
    List.forall_mem_cons.mpr ⟨isInner_leaf hl, hcontent h⟩
  have hlast {trees : List SyntaxTree} {last : SyntaxTree} (h : ∀ c ∈ trees, c.IsInner)
      (hlast : last.IsInner) : ∀ c ∈ trees ++ [last], c.IsInner :=
    List.forall_mem_append.mpr ⟨h, List.forall_mem_singleton.mpr hlast⟩
  cases h with
  | root h => exact .inr (.inr ⟨by simp, hcontent h⟩)
  | braces hkind hl h hr =>
    refine .inr (.inr ⟨?_, hlast (hdelimited (by simp [hl]) h) (isInner_leaf (by simp [hr]))⟩)
    rcases hkind with rfl | rfl <;> simp
  | openBraces hkind hl h =>
    refine .inr (.inr ⟨?_, hdelimited (by simp [hl]) h⟩)
    rcases hkind with rfl | rfl <;> simp
  | brackets hl h hr =>
    exact .inr (.inr ⟨by simp, hlast (hdelimited (by simp [hl]) h) (isInner_leaf (by simp [hr]))⟩)
  | openBrackets hl h => exact .inr (.inr ⟨by simp, hdelimited (by simp [hl]) h⟩)
  | command ht h =>
    exact .inl ⟨_, _, rfl, Token.starts?_of_isOrdinary ht, fun p hp => (h p hp).isInner⟩
  | opening ht h =>
    exact .inl ⟨_, _, rfl, Token.starts?_of_isBegin ht, fun p hp => (h p hp).isInner⟩
  | closing ht h =>
    exact .inl ⟨_, _, rfl, Token.starts?_of_isEnd ht, fun p hp => (h p hp).isInner⟩
  | environment hb h he =>
    obtain ⟨parts, rfl⟩ := exists_of_isNode hb
    obtain ⟨ending, rfl⟩ := exists_of_isNode he
    exact .inr (.inl ⟨parts, _, rfl, rfl, hlast (hcontent h) ⟨rfl, rfl⟩⟩)
  | openEnvironment hb h =>
    obtain ⟨parts, rfl⟩ := exists_of_isNode hb
    exact .inr (.inl ⟨parts, _, rfl, rfl, hcontent h⟩)
  | error ht =>
    exact .inr (.inr ⟨by simp, List.forall_mem_singleton.mpr (isInner_leaf (by simp [ht]))⟩)

namespace SyntaxTree

/-- The control sequence that a visited node of the given kind starts with. -/
def Visit.head? (kind : NodeKind) (v : Visit) : Option PlacedToken :=
  match v.tree with
  | node k (leaf t :: _) => if k = kind ∧ t.kind = .command then some ⟨v.offset, t⟩ else none
  | _ => none

/-- The control sequences that start nodes of a kind. -/
def starters (kind : NodeKind) (tokens : List PlacedToken) : List PlacedToken :=
  tokens.filter (·.token.starts? = some kind)

theorem starters_cons (kind : NodeKind) (p : PlacedToken) (tokens : List PlacedToken) :
    starters kind (p :: tokens) =
      if p.token.starts? = some kind then p :: starters kind tokens else starters kind tokens := by
  simp [starters, List.filter_cons]

theorem starters_append (kind : NodeKind) (a b : List PlacedToken) :
    starters kind (a ++ b) = starters kind a ++ starters kind b :=
  List.filter_append ..

theorem head?_of_isToken {depth offset : Nat} {k : NodeKind} {children : List SyntaxTree}
    (h : ∀ c ∈ children, c.isToken .command = false) (kind : NodeKind) :
    Visit.head? kind ⟨depth, offset, node k children⟩ = none := by
  cases children with
  | nil => rfl
  | cons c rest =>
    cases c with
    | node _ _ => rfl
    | leaf t =>
      have ht : t.kind ≠ .command := by simpa [isToken] using h _ List.mem_cons_self
      simp [Visit.head?, ht]

/-- In a sequence of trees, of which none is a control sequence, nodes of a kind start with the
control sequences of their sort if they do so in each tree. -/
theorem filterMap_head?_preorderOfAll {trees : List SyntaxTree} (kind : NodeKind)
    (h : ∀ tree ∈ trees, ∀ (behind : List Token) (depth offset : Nat), tree.WellFormed behind →
      tree.isToken .command = false → (tree.preorder depth offset).filterMap (·.head? kind) =
        starters kind (placeTokens offset tree.tokens))
    {behind : List Token} (hwell : AllWellFormed behind trees)
    (hcontrol : ∀ c ∈ trees, c.isToken .command = false) (depth offset : Nat) :
    (preorderOfAll depth offset trees).filterMap (·.head? kind) =
      starters kind (placeTokens offset (tokensOfAll trees)) := by
  induction trees generalizing offset with
  | nil => rfl
  | cons tree trees ih =>
    rw [List.forall_mem_cons] at h hcontrol
    rw [preorderOfAll_cons, List.filterMap_append, h.1 _ _ _ hwell.1 hcontrol.1,
      ih h.2 hwell.2 hcontrol.2, tokensOfAll_cons, placeTokens_append, starters_append, length_eq]
    rfl

/-- On the way through a tree, nodes of a kind start with the control sequences of their sort, one
after the other. -/
theorem filterMap_head?_preorder {tree : SyntaxTree} {behind : List Token}
    (h : tree.WellFormed behind) (hcontrol : tree.isToken .command = false) (kind : NodeKind)
    (depth offset : Nat) : (tree.preorder depth offset).filterMap (·.head? kind) =
      starters kind (placeTokens offset tree.tokens) := by
  induction tree using SyntaxTree.induct generalizing behind depth offset with
  | leaf t =>
    have ht : t.starts? = none := Token.starts?_of_ne (by simpa [isToken] using hcontrol)
    simp [Visit.head?, placeTokens, ht, starters]
  | node k children ih =>
    obtain ⟨hform, hchildren⟩ := h
    have hall {trees : List SyntaxTree} (hsub : ∀ c ∈ trees, c ∈ children)
        (hwell : AllWellFormed behind trees) (hnone : ∀ c ∈ trees, c.isToken .command = false)
        (depth offset : Nat) :=
      filterMap_head?_preorderOfAll kind
        (fun c hc _ depth offset hwell hnone => ih c (hsub c hc) hwell hnone depth offset)
        hwell hnone depth offset
    rw [preorder_node, tokens_node]
    rcases hform.start with ⟨t, rest, rfl, ht, hrest⟩ | ⟨parts, rest, -, rfl, hrest⟩ | ⟨-, hnone⟩
    · have hkind : t.kind = .command := Token.kind_of_starts? ht
      rw [preorderOfAll_cons, preorder_leaf, tokensOfAll_cons, tokens_leaf, List.singleton_append,
        List.singleton_append, placeTokens, starters_cons, List.filterMap_cons, List.filterMap_cons,
        hall (fun c hc => List.mem_cons_of_mem _ hc) hchildren.2 (fun c hc => (hrest c hc).1),
        length_eq, text_leaf]
      by_cases hk : k = kind
      · simp [Visit.head?, hkind, ht, hk]
      · simp [Visit.head?, ht, hk]
    · have hnone : ∀ c ∈ node .opening parts :: rest, c.isToken .command = false :=
        List.forall_mem_cons.mpr ⟨rfl, fun c hc => (hrest c hc).1⟩
      rw [List.filterMap_cons, head?_of_isToken hnone]
      exact hall (fun _ => id) hchildren hnone (depth + 1) offset
    · rw [List.filterMap_cons, head?_of_isToken fun c hc => (hnone c hc).1]
      exact hall (fun _ => id) hchildren (fun c hc => (hnone c hc).1) (depth + 1) offset

end SyntaxTree

/-! ### Commands -/

/-- What a usage says of its control sequence: the name, where it starts, its index and the index of
the command before it. -/
def CommandUsage.account (u : CommandUsage) : String × Nat × Nat × Option Nat :=
  (u.name, u.span.start, u.index, u.previousIndex)

namespace Document

variable (path : String) (text : Text)

/-- The control sequences of a document that start nodes of a kind, each at its place. -/
theorem filterMap_head?_parse (kind : NodeKind) :
    ((parse text).tree.preorder 0 0).filterMap (·.head? kind) =
      starters kind (placeTokens 0 (tokenize text)) := by
  have hcontrol : (parse text).tree.isToken .command = false := by
    rw [parse_tree]
    rfl
  rw [filterMap_head?_preorder (wellFormed_parse text) hcontrol, tokens_parse]

theorem map_account_command? (v : Visit) (index : Nat) :
    v.command?.map (fun usage => (usage index).account) =
      (v.head? .command).map fun p => (String.ofList p.token.text, p.offset, index,
        if index = 0 then none else some (index - 1)) := by
  obtain ⟨depth, offset, tree⟩ := v
  rw [Visit.command?, Visit.head?]
  cases tree with
  | leaf t => rfl
  | node k children =>
    cases children with
    | nil => simp [commandName?]
    | cons c rest =>
      cases c with
      | node _ _ => simp [commandName?]
      | leaf t =>
        by_cases hk : k = .command
        · by_cases ht : t.kind = .command
          · simp [isNode, commandName?, hk, ht, CommandUsage.account, Visit.span, Span.ofLength,
              CommandUsage.previousIndex]
          · simp [commandName?, hk, ht]
        · simp [isNode, hk]

/-- The commands of a document are its control sequences that neither begin nor end an environment,
in order. -/
theorem map_account_commands (i : Nat) : ((read path text).commands[i]?).map (·.account) =
    ((starters .command (placeTokens 0 (tokenize text)))[i]?).map fun p =>
      (String.ofList p.token.text, p.offset, i, if i = 0 then none else some (i - 1)) := by
  rw [commands_getElem?, ← filterMap_head?_parse, Option.map_map, ← List.getElem?_map,
    ← List.getElem?_map, List.map_filterMap, List.map_filterMap]
  simp only [← map_account_command?, Function.comp_def]

end Document

/-! ### Environments -/

/-- A beginning of an environment. -/
structure Beginning where
  /-- The control sequence and where it stands. -/
  start : PlacedToken
  /-- The parameters that are glued to it. -/
  parameters : List SyntaxTree

namespace Beginning

/-- The tokens of a beginning. -/
def tokens (b : Beginning) : List Token := b.start.token :: tokensOfAll b.parameters

/-- The range of a beginning with its parameters. -/
def span (b : Beginning) : Span := .ofLength b.start.offset (byteLength (tokensText b.tokens))

/-- Whether a brace group is among the parameters. -/
def isNamed (b : Beginning) : Bool := b.parameters.any (·.isNode .required)

/-- A beginning stands in a token sequence, and its parameters are all that are glued to it: the
first one follows the control sequence, each of them follows the one before it, and none follows
the last. -/
def IsGlued (b : Beginning) (source : List Token) : Prop :=
  ∃ before behind, source = before ++ b.tokens ++ behind ∧
    b.start.offset = byteLength (tokensText before) ∧
    (∀ p ∈ b.parameters, p.IsParameter true) ∧ AllWellFormed behind b.parameters ∧
    NoParameter true behind

end Beginning

namespace SyntaxTree

/-- The beginning that a visited node is. -/
def Visit.beginning? (v : Visit) : Option Beginning :=
  match v.tree with
  | node .opening (leaf t :: parameters) => some ⟨⟨v.offset, t⟩, parameters⟩
  | _ => none

/-- The beginnings of environments in a tree, in order. -/
def beginnings (tree : SyntaxTree) : List Beginning :=
  (tree.preorder 0 0).filterMap (·.beginning?)

/-- The range of the beginning that a visited node is, if it has a name. -/
def Visit.beginningSpan? (v : Visit) : Option Span :=
  (v.beginning?.filter (·.isNamed)).map (·.span)

/-- The range of the beginning of the environment that a visited node is, if it is used. -/
def Visit.usageSpan? (v : Visit) : Option Span :=
  ((Environment.ofTree? v.offset v.tree).bind (·.toUsage?)).map (·.span)

theorem any_isRequired_parameters (offset : Nat) (tree : SyntaxTree) :
    (tree.parameters offset).any (·.isRequired) = tree.children.any (·.isNode .required) := by
  rw [parameters]
  induction tree.children generalizing offset with
  | nil => rfl
  | cons c children ih =>
    have htail := ih (offset + c.length)
    rw [withOffsets_cons, List.any_cons, ← htail, List.filterMap_cons]
    cases c with
    | leaf t => rfl
    | node k parts =>
      cases k with
      | root | group | command | environment | opening | closing | error => rfl
      | required => rfl
      | optional => rfl

/-- An environment is used if its beginning has a required parameter. -/
theorem usageSpan?_environment {depth offset : Nat} {t : Token}
    {parameters content : List SyntaxTree} :
    Visit.usageSpan? ⟨depth, offset,
        node .environment (node .opening (leaf t :: parameters) :: content)⟩ =
      Visit.beginningSpan? ⟨depth + 1, offset, node .opening (leaf t :: parameters)⟩ := by
  have hany := any_isRequired_parameters offset (node .opening (leaf t :: parameters))
  have hnamed : (Beginning.mk ⟨offset, t⟩ parameters).isNamed =
      ((node .opening (leaf t :: parameters)).parameters offset).any (·.isRequired) := by
    rw [hany, children, List.any_cons]
    rfl
  rw [Visit.usageSpan?, Environment.ofTree?, Visit.beginningSpan?, Visit.beginning?]
  simp only [isNode, beq_self_eq_true, if_true, children, withOffsets_cons, List.find?_cons,
    Option.map_some, Option.bind_some, Environment.toUsage?, Environment.nameOf, Option.map_map,
    Option.filter_some, hnamed]
  cases hfind : ((node .opening (leaf t :: parameters)).parameters offset).find? (·.isRequired) with
  | none =>
    have hnone : ((node .opening (leaf t :: parameters)).parameters offset).any (·.isRequired)
        = false := List.any_eq_false.mpr (List.find?_eq_none.mp hfind)
    simp [hnone]
  | some p =>
    have hsome : ((node .opening (leaf t :: parameters)).parameters offset).any (·.isRequired)
        = true := List.any_eq_true.mpr ⟨p, List.mem_of_find?_eq_some hfind, List.find?_some hfind⟩
    simp [hsome, Beginning.span, Beginning.tokens, length_eq, text]

theorem beginningSpan?_eq_none {v : Visit} (h : v.tree.isNode .opening = false) :
    v.beginningSpan? = none := by
  rw [Visit.beginningSpan?, Visit.beginning?]
  split
  · next htree => simp [htree, isNode] at h
  · rfl

theorem usageSpan?_eq_none {v : Visit} (h : v.tree.isNode .environment = false) :
    v.usageSpan? = none := by
  rw [Visit.usageSpan?, Environment.ofTree?]
  simp [h]

theorem filterMap_cons_toList {α β : Type} (f : α → Option β) (a : α) (l : List α) :
    (a :: l).filterMap f = (f a).toList ++ l.filterMap f := by
  cases h : f a with
  | none => simp [h]
  | some b => simp [h]

/-- In a sequence of trees, of which none is a beginning, the used environments are the named
beginnings if they are so in each tree. -/
theorem filterMap_usageSpan?_preorderOfAll {trees : List SyntaxTree}
    (h : ∀ tree ∈ trees, ∀ (behind : List Token) (depth offset : Nat), tree.WellFormed behind →
      (tree.preorder depth offset).filterMap (·.beginningSpan?) =
        (Visit.beginningSpan? ⟨depth, offset, tree⟩).toList ++
          (tree.preorder depth offset).filterMap (·.usageSpan?))
    {behind : List Token} (hwell : AllWellFormed behind trees)
    (hopening : ∀ c ∈ trees, c.isNode .opening = false) (depth offset : Nat) :
    (preorderOfAll depth offset trees).filterMap (·.beginningSpan?) =
      (preorderOfAll depth offset trees).filterMap (·.usageSpan?) := by
  induction trees generalizing offset with
  | nil => rfl
  | cons tree trees ih =>
    rw [List.forall_mem_cons] at h hopening
    rw [preorderOfAll_cons, List.filterMap_append, List.filterMap_append, h.1 _ _ _ hwell.1,
      ih h.2 hwell.2 hopening.2, beginningSpan?_eq_none hopening.1]
    rfl

/-- On the way through a tree, the used environments are the named beginnings. A tree that is itself
a beginning belongs to the environment around it. -/
theorem filterMap_usageSpan?_preorder {tree : SyntaxTree} {behind : List Token}
    (h : tree.WellFormed behind) (depth offset : Nat) :
    (tree.preorder depth offset).filterMap (·.beginningSpan?) =
      (Visit.beginningSpan? ⟨depth, offset, tree⟩).toList ++
        (tree.preorder depth offset).filterMap (·.usageSpan?) := by
  induction tree using SyntaxTree.induct generalizing behind depth offset with
  | leaf t => rfl
  | node k children ih =>
    obtain ⟨hform, hchildren⟩ := h
    have hall {trees : List SyntaxTree} (hsub : ∀ c ∈ trees, c ∈ children)
        (hwell : AllWellFormed behind trees) (hnone : ∀ c ∈ trees, c.isNode .opening = false)
        (depth offset : Nat) :=
      filterMap_usageSpan?_preorderOfAll
        (fun c hc _ depth offset hwell => ih c (hsub c hc) hwell depth offset)
        hwell hnone depth offset
    have hnode (hk : k ≠ .environment) (hnone : ∀ c ∈ children, c.isNode .opening = false) :
        ((node k children).preorder depth offset).filterMap (·.beginningSpan?) =
          (Visit.beginningSpan? ⟨depth, offset, node k children⟩).toList ++
            ((node k children).preorder depth offset).filterMap (·.usageSpan?) := by
      have husage : Visit.usageSpan? ⟨depth, offset, node k children⟩ = none :=
        usageSpan?_eq_none (by simp [isNode, hk])
      rw [preorder_node, filterMap_cons_toList, filterMap_cons_toList, husage,
        hall (fun _ => id) hchildren hnone]
      rfl
    rcases hform.start with ⟨t, rest, rfl, ht, hrest⟩ | ⟨parts, rest, rfl, rfl, hrest⟩ | ⟨hk, hnone⟩
    · refine hnode ?_ (List.forall_mem_cons.mpr ⟨rfl, fun c hc => (hrest c hc).2⟩)
      rintro rfl
      exact Token.starts?_ne_environment ht
    · obtain ⟨t, parameters, rfl, -, -, -⟩ := hchildren.1.1.exists_of_opening
      have hbegun : Visit.beginningSpan? ⟨depth, offset,
          node .environment (node .opening (leaf t :: parameters) :: rest)⟩ = none :=
        beginningSpan?_eq_none rfl
      rw [preorder_node, filterMap_cons_toList, filterMap_cons_toList, hbegun,
        usageSpan?_environment, preorderOfAll_cons, List.filterMap_append, List.filterMap_append,
        ih _ List.mem_cons_self hchildren.1,
        hall (fun c hc => List.mem_cons_of_mem _ hc) hchildren.2 fun c hc => (hrest c hc).2]
      simp
    · exact hnode hk.1 fun c hc => (hnone c hc).2

theorem opening_of_beginning? {v : Visit} {b : Beginning} (h : v.beginning? = some b) :
    v.tree = .node .opening (.leaf b.start.token :: b.parameters) ∧ v.offset = b.start.offset := by
  obtain ⟨depth, offset, tree⟩ := v
  rw [Visit.beginning?] at h
  split at h
  · next htree =>
    cases h
    exact ⟨htree, rfl⟩
  · cases h

end SyntaxTree

/-- Two places in a token sequence are the same if they have the same offset. -/
theorem eq_of_byteLength_eq {a b a' b' : List Token} (hne : ∀ t ∈ a ++ b, t.text ≠ [])
    (h : a ++ b = a' ++ b')
    (hoffset : byteLength (tokensText a) = byteLength (tokensText a')) : b = b' := by
  have hnil {c : List Token} (hne : ∀ t ∈ c, t.text ≠ [])
      (hlength : byteLength (tokensText c) = 0) : c = [] := by
    cases c with
    | nil => rfl
    | cons t c =>
      have hpos := byteLength_pos (hne t List.mem_cons_self)
      rw [tokensText_cons, byteLength_append] at hlength
      omega
  rcases List.append_eq_append_iff.mp h with ⟨c, rfl, rfl⟩ | ⟨c, rfl, rfl⟩
  · rw [tokensText_append, byteLength_append] at hoffset
    have hc : c = [] := hnil (fun t ht => hne t (by simp [ht])) (by omega)
    rw [hc, List.nil_append]
  · rw [tokensText_append, byteLength_append] at hoffset
    have hc : c = [] := hnil (fun t ht => hne t (by simp [ht])) (by omega)
    rw [hc, List.nil_append]

namespace Beginning

/-- A beginning has a brace group if a brace follows its control sequence. -/
theorem isNamed_of_lbrace {b : Beginning} {behind behind' : List Token} {l : Token}
    (hparameters : ∀ p ∈ b.parameters, p.IsParameter true)
    (hwell : AllWellFormed behind' b.parameters) (hbehind : NoParameter true behind')
    (hl : l.kind = .lbrace) (htokens : tokensOfAll b.parameters ++ behind' = l :: behind) :
    b.isNamed = true := by
  obtain ⟨start, parameters⟩ := b
  cases parameters with
  | nil =>
    obtain rfl : behind' = l :: behind := htokens
    exact absurd hl (hbehind l rfl).1
  | cons p parameters =>
    rcases hparameters p List.mem_cons_self with hrequired | ⟨-, hoptional⟩
    · simp [isNamed, hrequired]
    · obtain ⟨children, rfl⟩ := exists_of_isNode hoptional
      obtain ⟨l', rest, rfl, hl'⟩ := hwell.1.1.exists_of_optional
      rw [tokensOfAll_cons, tokens_node, tokensOfAll_cons, tokens_leaf] at htokens
      obtain rfl : l' = l := (List.cons.inj htokens).1
      simp [hl] at hl'

end Beginning

namespace Document

variable (path : String) (text : Text)

/-- The beginnings of environments have all the parameters that are glued to them. -/
theorem isGlued_of_mem_beginnings {b : Beginning} (hb : b ∈ beginnings (parse text).tree) :
    b.start.token.isBegin = true ∧ b.IsGlued (tokenize text) := by
  obtain ⟨v, hv, hbeginning⟩ := List.mem_filterMap.mp hb
  obtain ⟨htree, hoffset⟩ := opening_of_beginning? hbeginning
  obtain ⟨before, behind, htokens, hplace, hwell⟩ := (wellFormed_parse text).of_mem_preorder hv
  rw [htree] at hwell htokens
  obtain ⟨t, parameters, heq, hbegin, hparameters, hbehind⟩ := hwell.1.exists_of_opening
  cases heq
  refine ⟨hbegin, before, behind, ?_, ?_, hparameters, hwell.2.2, hbehind⟩
  · rw [← tokens_parse text, Beginning.tokens]
    simpa using htokens
  · rw [← hoffset, hplace, Nat.zero_add]

/-- The beginnings of environments are the control sequences that begin one, in order. -/
theorem map_start_beginnings : (beginnings (parse text).tree).map (·.start) =
    starters .opening (placeTokens 0 (tokenize text)) := by
  rw [← filterMap_head?_parse, beginnings, List.map_filterMap]
  refine List.filterMap_congr fun v hv => ?_
  obtain ⟨-, behind, -, -, hwell⟩ := (wellFormed_parse text).of_mem_preorder hv
  cases hnode : v.tree.isNode .opening with
  | true =>
    obtain ⟨children, htree⟩ := exists_of_isNode hnode
    rw [htree] at hwell
    obtain ⟨t, parameters, rfl, hbegin, -, -⟩ := hwell.1.exists_of_opening
    simp [Visit.beginning?, Visit.head?, htree, Token.kind_of_isBegin hbegin]
  | false =>
    rw [Visit.beginning?, Visit.head?]
    split
    · next htree => simp [htree, isNode] at hnode
    · split
      · next _ k _ _ htree =>
        have hk : ¬ k = .opening := by simpa [htree, isNode] using hnode
        simp [hk]
      · rfl

/-- The environments of a document are the beginnings with a brace group, in order. -/
theorem map_span_environments : (read path text).environments.map (·.span) =
    ((beginnings (parse text).tree).filter (·.isNamed)).map (·.span) := by
  have husages := filterMap_usageSpan?_preorder (wellFormed_parse text) 0 0
  have hroot : Visit.beginningSpan? ⟨0, 0, (parse text).tree⟩ = none :=
    beginningSpan?_eq_none (by rw [parse_tree]; rfl)
  rw [hroot] at husages
  have hspans : (environmentUsages (parse text).tree).map (·.span) =
      ((parse text).tree.preorder 0 0).filterMap (·.usageSpan?) := by
    rw [environmentUsages, TexLint.environments, List.filterMap_filterMap, List.map_filterMap]
    rfl
  have hnamed : ((beginnings (parse text).tree).filter (·.isNamed)).map (·.span) =
      ((parse text).tree.preorder 0 0).filterMap (·.beginningSpan?) := by
    rw [beginnings, List.filter_filterMap, List.map_filterMap]
    rfl
  rw [hnamed, husages]
  exact hspans

/-- A beginning that a brace follows is used. -/
theorem exists_environment_of_lbrace {before behind : List Token} {t l : Token}
    (h : tokenize text = before ++ t :: l :: behind) (ht : t.isBegin = true)
    (hl : l.kind = .lbrace) :
    ∃ e ∈ (read path text).environments, e.span.start = byteLength (tokensText before) := by
  have hplaced : (⟨byteLength (tokensText before), t⟩ : PlacedToken) ∈
      starters .opening (placeTokens 0 (tokenize text)) := by
    rw [h, placeTokens_append, starters_append, placeTokens, starters_cons,
      if_pos (Token.starts?_of_isBegin ht), Nat.zero_add]
    simp
  rw [← map_start_beginnings] at hplaced
  obtain ⟨b, hb, hstart⟩ := List.mem_map.mp hplaced
  obtain ⟨-, before', behind', htokens, hoffset, hparameters, hwell, hbehind⟩ :=
    isGlued_of_mem_beginnings text hb
  rw [hstart] at hoffset
  have hne : ∀ u ∈ before ++ t :: l :: behind, u.text ≠ [] := fun u hu =>
    (begins_of_mem_tokenize (h ▸ hu)).text_ne_nil
  have hrest : t :: l :: behind = b.tokens ++ behind' :=
    eq_of_byteLength_eq hne (by rw [← h, htokens, List.append_assoc]) hoffset
  have hnamed : b.isNamed = true :=
    Beginning.isNamed_of_lbrace hparameters hwell hbehind hl (List.cons.inj hrest).2.symm
  have hspan : b.span ∈ (read path text).environments.map (·.span) := by
    rw [map_span_environments]
    exact List.mem_map_of_mem (List.mem_filter.mpr ⟨hb, hnamed⟩)
  obtain ⟨e, he, heq⟩ := List.mem_map.mp hspan
  refine ⟨e, he, ?_⟩
  rw [heq, Beginning.span, hstart]
  rfl

/-- The commands of a document are the control sequences of its source that neither begin nor end
an environment, in order: each usage has the name of its control sequence, starts where it stands
and counts those before it. The environments of a document are, in order, those control sequences
that begin one and have a brace group among the parameters glued to them. A brace right behind the
beginning is enough. -/
theorem usages_read :
    (∀ i, ((read path text).commands[i]?).map (·.account) =
      (((placeTokens 0 (tokenize text)).filter (fun p => p.token.IsOrdinary))[i]?).map fun p =>
        (String.ofList p.token.text, p.offset, i, if i = 0 then none else some (i - 1))) ∧
    (beginnings (parse text).tree).map (·.start) =
      (placeTokens 0 (tokenize text)).filter (·.token.isBegin) ∧
    (∀ b ∈ beginnings (parse text).tree, b.IsGlued (tokenize text)) ∧
    (read path text).environments.map (·.span) =
      ((beginnings (parse text).tree).filter (·.isNamed)).map (·.span) ∧
    ∀ before t l behind, tokenize text = before ++ t :: l :: behind → t.isBegin = true →
      l.kind = .lbrace →
      ∃ e ∈ (read path text).environments, e.span.start = byteLength (tokensText before) := by
  have hordinary : (placeTokens 0 (tokenize text)).filter (fun p => p.token.IsOrdinary) =
      starters .command (placeTokens 0 (tokenize text)) := by
    simp only [starters, Token.starts?_eq_some_command_iff]
  have hbegin : (placeTokens 0 (tokenize text)).filter (·.token.isBegin) =
      starters .opening (placeTokens 0 (tokenize text)) := by
    simp [starters, Token.starts?_eq_some_opening_iff]
  refine ⟨fun i => ?_, ?_, fun b hb => ?_, ?_, fun before t l behind h ht hl => ?_⟩
  · rw [hordinary, map_account_commands]
  · rw [hbegin, map_start_beginnings]
  · exact (isGlued_of_mem_beginnings text hb).2
  · exact map_span_environments path text
  · exact exists_environment_of_lbrace path text h ht hl

end Document

end TexLint
