import TexLint.Proofs.Check.MissingImport
import TexLint.Proofs.Document.Delimiters
import TexLint.Proofs.Source.Comments
import TexLint.Proofs.Text.Pieces

/-!
# Comments in imports

The names and options of an import are read off the text of its parameters. This module says what
becomes of the comments in that text.

## The model

* `Strips` relates a text to what is left of it when its last character may have been a delimiter.
* `SyntaxTree.innerTokens` are the tokens between the delimiters of a parameter, and
  `SyntaxTree.contentText` is the text from which its options are read.
* `Manuscript.importsOf` are the imports that one command makes.

## What is proved

* `names_eq_iff`: the names in a brace group are those of its tokens without the comments exactly if
  it holds none and its braces are taken off where the tree has them.
* `optionPairs_eq_iff`: the options are those without the comments exactly if there are none.
* `Manuscript.importsOf_comments`: what this means for the imports of a manuscript.
-/

namespace TexLint

open SyntaxTree

/-- A text is another one, or that one without the character at its end. -/
def Strips (d : Char) (inner x : Text) : Prop := x = inner ∨ inner = x ++ [d]

namespace Strips

variable {c d : Char} {inner x y : Text}

theorem of_closed {closed : Bool} (h : closed = true → inner.getLast? = some d) :
    Strips d inner (if closed then inner.dropLast else inner) := by
  cases closed with
  | false => exact .inl rfl
  | true => exact .inr (List.dropLast_append_getLast? d (h rfl)).symm

theorem count_eq (h : Strips d inner x) (hne : c ≠ d) : x.count c = inner.count c := by
  rcases h with rfl | rfl
  · rfl
  · simp [List.count_append, Ne.symm hne]

theorem eq_of_count_eq (hx : Strips d inner x) (hy : Strips d inner y)
    (h : x.count d = y.count d) : x = y := by
  rcases hx with rfl | rfl
  · rcases hy with rfl | rfl
    · rfl
    · simp at h
  · rcases hy with rfl | hy
    · simp at h
    · exact List.append_cancel_right hy

end Strips

/-! ### Names -/

namespace SyntaxTree

/-- The tokens between the delimiters that the node of a parameter has. -/
def innerTokens (tree : SyntaxTree) : List Token :=
  if tree.isClosed then tree.tokens.tail.dropLast else tree.tokens.tail

theorem innerTokens_isInfix (tree : SyntaxTree) : tree.innerTokens <:+: tree.tokens := by
  rw [innerTokens]
  split
  · exact (List.dropLast_prefix _).isInfix.trans (List.tail_suffix _).isInfix
  · exact (List.tail_suffix _).isInfix

end SyntaxTree

section Names

variable {children : List SyntaxTree} {behind : List Token}

theorem tokensText_innerTokens (h : Form .required children behind)
    (hlexed : Lexed (tokensOfAll children)) :
    tokensText (node .required children).innerTokens = (node .required children).delimitedText := by
  obtain ⟨l, content, ending, rfl, hl, hbraces, hend⟩ := h.braced (.inr rfl)
  rw [delimitedText, text_node, textOfAll_of_leaf hlexed (c := '{') (by decide) hl, innerTokens,
    tokens_node, tokensOfAll_cons, tokens_leaf, List.singleton_append, List.tail_cons,
    List.tail_cons, tokensOfAll_append]
  rw [tokensOfAll_cons, tokens_leaf, List.singleton_append, tokensOfAll_append] at hlexed
  rcases hend with ⟨r, rfl, hr⟩ | ⟨-, rfl⟩
  · have htext : textOfAll [leaf r] = ['}'] := textOfAll_of_leaf hlexed.2.right (by decide) hr
    rw [← List.cons_append, isClosed_append hr, if_pos rfl, if_pos rfl, textOfAll_append, htext,
      tokensOfAll_cons, tokens_leaf, tokensOfAll_nil]
    simp [textOfAll]
  · rw [List.append_nil, isClosed_cons hl hbraces]
    simp [textOfAll]

/-- The names in a brace group are those of its tokens without the comments exactly if it holds none
and its braces are taken off where the tree has them. -/
theorem names_eq_iff (h : Form .required children behind) (hlexed : Lexed (tokensOfAll children)) :
    namesIn (stripGroup (textOfAll children)) =
        namesIn (tokensText (uncommented (node .required children).innerTokens)) ↔
      (∀ t ∈ (node .required children).innerTokens, t.kind ≠ .comment) ∧
        stripGroup (textOfAll children) = (node .required children).delimitedText := by
  obtain ⟨inner, htext, hclosed⟩ := text_of_required h hlexed
  have hinner := tokensText_innerTokens h hlexed
  constructor
  · intro hnames
    have hdelimited : Strips '}' inner (node .required children).delimitedText := by
      rw [delimitedText, text_node, htext]
      exact .of_closed hclosed
    have hstrip : Strips '}' inner (stripGroup (textOfAll children)) := by
      rw [htext]
      show Strips '}' inner (if endsBraceGroup 0 inner then inner.dropLast else inner)
      exact .of_closed getLast?_of_endsBraceGroup
    have hcount {c : Char} (hspace : isWhitespace c = false) (hcomma : c ≠ ',') :
        (stripGroup (textOfAll children)).count c =
          (tokensText (uncommented (node .required children).innerTokens)).count c := by
      rw [← count_namesIn hspace hcomma, hnames, count_namesIn hspace hcomma]
    have hcomments : ∀ t ∈ (node .required children).innerTokens, t.kind ≠ .comment := by
      refine no_comment_of_count_le (hlexed.of_infix ?_).percent_mem (Nat.le_of_eq ?_)
      · simpa using innerTokens_isInfix (node .required children)
      · rw [← hcount (by decide) (by decide), hinner, hdelimited.count_eq (by decide),
          hstrip.count_eq (by decide)]
    refine ⟨hcomments, hstrip.eq_of_count_eq hdelimited ?_⟩
    rw [hcount (by decide) (by decide), uncommented_eq_self hcomments, hinner]
  · rintro ⟨hcomments, hstrip⟩
    rw [uncommented_eq_self hcomments, hinner, hstrip]

end Names

/-! ### Options -/

namespace SyntaxTree

/-- The bracket groups that are parameters of a node. -/
def brackets (tree : SyntaxTree) : List SyntaxTree := tree.children.filter (·.isNode .optional)

/-- The text of a parameter from which options are read. -/
def contentText (tree : SyntaxTree) : Text := (contentsOf tree.children).flatMap Content.chars

theorem brackets_withoutComments (tree : SyntaxTree) :
    tree.withoutComments.brackets = tree.brackets.map withoutComments := by
  cases tree with
  | leaf t => rfl
  | node kind children => exact filter_withoutCommentsOfAll .optional children

/-- Options are read from the bracket groups of a node. -/
theorem joinedOptions_parameters (offset : Nat) (tree : SyntaxTree) :
    joinedOptions (tree.parameters offset) =
      ((tree.brackets.map contentText).intersperse [',']).flatten := by
  have htexts : ((tree.parameters offset).filter (!·.isRequired)).map
      (fun p => p.contents.flatMap Content.chars) = tree.brackets.map contentText := by
    rw [parameters, brackets]
    induction tree.children generalizing offset with
    | nil => rfl
    | cons c children ih =>
      have htail := ih (offset + c.length)
      rw [withOffsets_cons, List.filterMap_cons, List.filter_cons]
      cases c with
      | leaf t => exact htail
      | node kind parts =>
        cases kind with
        | root | group | command | environment | opening | closing | error => exact htail
        | required => exact htail
        | optional => exact congrArg (List.cons _) htail
  rw [joinedOptions, htexts]

end SyntaxTree

/-- Options are read as if there were no comments where there are none. -/
theorem joinedOptions_withoutComments {tree : SyntaxTree} (offset : Nat)
    (h : ∀ b ∈ tree.brackets, ∀ t ∈ b.tokens, t.kind ≠ .comment) :
    joinedOptions (tree.withoutComments.parameters offset) =
      joinedOptions (tree.parameters offset) := by
  have hsame : tree.brackets.map withoutComments = tree.brackets :=
    (List.map_congr_left fun b hb => withoutComments_eq_self b (h b hb)).trans (List.map_id _)
  rw [joinedOptions_parameters, joinedOptions_parameters, brackets_withoutComments, hsame]

section Options

variable {tree : SyntaxTree} {children : List SyntaxTree} {behind : List Token}

/-- What a part of a parameter holds stands in its text. -/
theorem sublist_chars_toContent (tree : SyntaxTree) :
    List.Sublist tree.toContent.chars tree.text := by
  rw [toContent]
  split
  · rw [Content.chars, groupInterior]
    split
    · split
      · exact (List.dropLast_sublist _).trans (List.drop_sublist _ _)
      · exact List.drop_sublist _ _
    · exact List.drop_sublist _ _
  · exact List.Sublist.refl _

theorem sublist_textOfAll {a b : List SyntaxTree} (h : List.Sublist a b) :
    List.Sublist (textOfAll a) (textOfAll b) := by
  induction h with
  | slnil => exact List.Sublist.refl _
  | cons tree _ ih =>
    rw [textOfAll_cons]
    exact ih.trans (List.sublist_append_right _ _)
  | cons_cons tree _ ih =>
    rw [textOfAll_cons, textOfAll_cons]
    exact (List.Sublist.refl _).append ih

theorem sublist_contents (content : List SyntaxTree) :
    List.Sublist ((content.map toContent).flatMap Content.chars) (textOfAll content) := by
  induction content with
  | nil => exact List.Sublist.refl _
  | cons tree content ih =>
    rw [List.map_cons, List.flatMap_cons, textOfAll_cons]
    exact (sublist_chars_toContent tree).append ih

/-- What options are read from stands in the text of the parameter. -/
theorem sublist_contentText (children : List SyntaxTree) (kind : NodeKind) :
    List.Sublist (node kind children).contentText (textOfAll children) := by
  rw [contentText, SyntaxTree.children, contentsOf]
  refine (sublist_contents _).trans (sublist_textOfAll ?_)
  split
  · split
    · exact (List.dropLast_sublist _).trans (List.drop_sublist _ _)
    · exact List.drop_sublist _ _
  · exact List.drop_sublist _ _

/-- A nested group loses its braces, and another part loses nothing. -/
theorem count_chars_toContent {c : Char} (hl : c ≠ '{') (hr : c ≠ '}') (h : tree.WellFormed behind)
    (hlexed : Lexed tree.tokens) : tree.toContent.chars.count c = tree.text.count c := by
  rw [toContent]
  split
  · next hnode =>
    obtain ⟨children, rfl⟩ := exists_of_isNode hnode
    rw [tokens_node] at hlexed
    obtain ⟨l, content, ending, rfl, hkind, -⟩ := h.1.braced (.inl rfl)
    have htext := textOfAll_of_leaf hlexed (c := '{') (by decide) hkind
    have hstrips : Strips '}' (textOfAll (content ++ ending))
        (node .group (leaf l :: (content ++ ending))).groupInterior := by
      rw [groupInterior, text_node, htext, List.drop_succ_cons, List.drop_zero]
      split
      · next last hlast =>
        refine .of_closed fun hclosed => ?_
        have hany : (leaf l :: (content ++ ending)).getLast?.any (·.isToken .rbrace) = true := by
          rw [show (leaf l :: (content ++ ending)).getLast? = some last from hlast]
          exact hclosed
        have hend := getLast?_textOfAll hlexed (c := '}') (by decide) hany
        rwa [htext, getLast?_cons_of_ne (by decide)] at hend
      · exact .inl rfl
    rw [Content.chars, hstrips.count_eq hr, text_node, htext, List.count_cons_of_ne (Ne.symm hl)]
  · rfl

theorem count_contents {c : Char} (hl : c ≠ '{') (hr : c ≠ '}') {content : List SyntaxTree}
    (hwell : AllWellFormed behind content) (hlexed : Lexed (tokensOfAll content)) :
    ((content.map toContent).flatMap Content.chars).count c = (textOfAll content).count c := by
  induction content with
  | nil => rfl
  | cons tree content ih =>
    rw [tokensOfAll_cons] at hlexed
    rw [List.map_cons, List.flatMap_cons, textOfAll_cons, List.count_append, List.count_append,
      count_chars_toContent hl hr hwell.1 hlexed.left, ih hwell.2 hlexed.right]

/-- A bracket group stands in brackets, of which the closing one may be missing. -/
theorem Form.bracketed (h : Form .optional children behind) : ∃ l content ending,
    children = .leaf l :: (content ++ ending) ∧ l.kind = .lbracket ∧
      ((∃ r, ending = [.leaf r] ∧ r.kind = .rbracket) ∨ ending = []) ∧
        contentsOf children = content.map toContent := by
  cases h with
  | braces hkind | openBraces hkind => simp at hkind
  | @brackets l r content _ hl hcontent hr =>
    refine ⟨l, content, [.leaf r], rfl, hl, .inl ⟨r, rfl, hr⟩, ?_⟩
    simp [contentsOf, isClosingToken, isToken, hr]
  | @openBrackets l content _ hl hcontent =>
    refine ⟨l, content, [], by simp, hl, .inr rfl, ?_⟩
    rw [contentsOf, List.drop_succ_cons, List.drop_zero]
    split
    · next last hlast =>
      have hopen : last.isClosingToken = false := by
        have hmay := hcontent last (List.mem_of_getLast? hlast)
        cases last with
        | node kind children => rfl
        | leaf t => simp [isClosingToken, isToken, hmay.1.2.2, (hmay.2 rfl).1]
      rw [if_neg (by simp [hopen])]
    · rfl

/-- A bracket group loses its brackets and the braces of nested groups. -/
theorem count_contentText {c : Char} (hbrackets : c ≠ '[' ∧ c ≠ ']') (hbraces : c ≠ '{' ∧ c ≠ '}')
    (h : Form .optional children behind) (hchildren : AllWellFormed behind children)
    (hlexed : Lexed (tokensOfAll children)) :
    (node .optional children).contentText.count c = (textOfAll children).count c := by
  obtain ⟨l, content, ending, rfl, hl, hend, hcontent⟩ := h.bracketed
  rw [textOfAll_of_leaf hlexed (c := '[') (by decide) hl]
  rw [tokensOfAll_cons, tokens_leaf, List.singleton_append, tokensOfAll_append] at hlexed
  have hending : (textOfAll ending).count c = 0 := by
    rcases hend with ⟨r, rfl, hr⟩ | rfl
    · rw [textOfAll_of_leaf hlexed.2.right (c := ']') (by decide) hr]
      simp [Ne.symm hbrackets.2]
    · rfl
  rw [contentText, SyntaxTree.children, hcontent,
    count_contents hbraces.1 hbraces.2 (allWellFormed_append.mp hchildren.2).1 hlexed.2.left,
    List.count_cons_of_ne (Ne.symm hbrackets.1), textOfAll_append, List.count_append, hending,
    Nat.add_zero]

/-- The options of a command hold a percent sign as often as its bracket groups do. -/
theorem count_optionPairs_parameters (offset : Nat) (tree : SyntaxTree) :
    ((optionPairs (tree.parameters offset)).flatMap fun e => e.1.toList ++ e.2.toList).count '%' =
      (tree.brackets.flatMap contentText).count '%' := by
  rw [count_optionPairs (by decide) (by decide) (by decide), joinedOptions_parameters,
    count_intersperse (by decide), List.flatMap_def]

/-- Without its comments, a parameter has only the percent signs outside of them. -/
theorem count_withoutComments_le {b : SyntaxTree} (hb : b.isNode .optional = true) :
    b.withoutComments.contentText.count '%' ≤ (tokensText (uncommented b.tokens)).count '%' := by
  obtain ⟨children, rfl⟩ := exists_of_isNode hb
  rw [← tokens_withoutComments (node .optional children) rfl]
  exact (sublist_contentText _ _).count_le _

/-- The options of a command are those without the comments exactly if its bracket groups hold
none. -/
theorem optionPairs_eq_iff (offset : Nat) (hlexed : ∀ b ∈ tree.brackets, Lexed b.tokens)
    (hwell : ∀ b ∈ tree.brackets, ∃ behind, b.WellFormed behind) :
    optionPairs (tree.parameters offset) = optionPairs (tree.withoutComments.parameters offset) ↔
      ∀ b ∈ tree.brackets, ∀ t ∈ b.tokens, t.kind ≠ .comment := by
  have hoptional {b : SyntaxTree} (hb : b ∈ tree.brackets) : b.isNode .optional = true :=
    (List.mem_filter.mp hb).2
  have hcontent {b : SyntaxTree} (hb : b ∈ tree.brackets) :
      b.text.count '%' = b.contentText.count '%' := by
    obtain ⟨children, rfl⟩ := exists_of_isNode (hoptional hb)
    obtain ⟨behind, hform, hchildren⟩ := hwell _ hb
    exact (count_contentText (by decide) (by decide) hform hchildren
      (by simpa using hlexed _ hb)).symm
  constructor
  · intro hpairs
    have hpercent : ∀ t ∈ tree.brackets.flatMap tokens, t.kind = .comment → '%' ∈ t.text :=
      List.forall_mem_flatMap.mpr fun b hb => (hlexed b hb).percent_mem
    have hcount : (tokensText (tree.brackets.flatMap tokens)).count '%' ≤
        (tokensText (uncommented (tree.brackets.flatMap tokens))).count '%' := by
      rw [uncommented, List.filter_flatMap, tokensText, tokensText, List.flatMap_assoc,
        List.flatMap_assoc]
      calc (tree.brackets.flatMap text).count '%'
        _ ≤ (tree.brackets.flatMap contentText).count '%' :=
            count_flatMap_le fun b hb => Nat.le_of_eq (hcontent hb)
        _ = ((tree.brackets.map withoutComments).flatMap contentText).count '%' := by
            rw [← count_optionPairs_parameters offset, hpairs, count_optionPairs_parameters,
              brackets_withoutComments]
        _ = (tree.brackets.flatMap fun b => b.withoutComments.contentText).count '%' := by
            rw [List.flatMap_map]
        _ ≤ (tree.brackets.flatMap fun b => tokensText (uncommented b.tokens)).count '%' :=
            count_flatMap_le fun b hb => count_withoutComments_le (hoptional hb)
    exact List.forall_mem_flatMap.mp (no_comment_of_count_le hpercent hcount)
  · intro hcomments
    rw [optionPairs, optionPairs, joinedOptions_withoutComments offset hcomments]

end Options

/-! ### Imports of a manuscript -/

theorem usage_of_mem_imports {u : CommandUsage} {x : PackageImport} (h : x ∈ u.imports) :
    x.usage = u.index := by
  rw [CommandUsage.imports] at h
  split at h
  · split at h
    · obtain ⟨name, -, rfl⟩ := List.mem_map.mp h
      rfl
    · cases h
  · cases h

theorem joinedOptions_optionalParameters (u : CommandUsage) :
    joinedOptions u.optionalParameters = joinedOptions u.parameters := by
  simp [joinedOptions, CommandUsage.optionalParameters, List.filter_filter]

namespace Manuscript

variable {m : Manuscript} {i j : Nat} {path : String} {text : Text} {u : CommandUsage}

/-- The imports that one command of one document makes. -/
def importsOf (m : Manuscript) (document usage : Nat) : List PackageImport :=
  (m.packageImports.filter fun x => x.document == document && x.value.usage == usage).map (·.value)

theorem collect_eq_flatMap {α : Type} (m : Manuscript) (f : Document → List α) :
    m.collect f = (m.inScope fun _ => true).flatMap fun e => (f e.2).map (⟨e.1, ·⟩) := by
  rw [collect, inScope, List.filter_true, List.flatMap_def, List.mapIdx_eq_zipIdx_map,
    List.mapIdx_eq_zipIdx_map, List.map_map]
  rfl

/-- The imports that a command makes are its own. -/
theorem importsOf_eq (hd : m.documents[i]? = some (.read path text))
    (hu : (Document.read path text).commands[j]? = some u) : m.importsOf i j = u.imports := by
  have hindex {k : Nat} {w : CommandUsage}
      (hw : (Document.read path text).commands[k]? = some w) : w.index = k :=
    Document.index_of_command hw
  have hpairwise : (Document.read path text).commands.Pairwise (·.index < ·.index) := by
    rw [List.pairwise_iff_getElem]
    intro k l hk hl hkl
    rw [hindex (List.getElem?_eq_getElem hk), hindex (List.getElem?_eq_getElem hl)]
    exact hkl
  have hdocument : m.packageImports.filter (fun x => x.document == i && x.value.usage == j) =
      (((Document.read path text).commands.flatMap (·.imports)).filter (·.usage == j)).map
        (⟨i, ·⟩) := by
    rw [packageImports, collect_eq_flatMap, filter_flatMap_of_pairwise
      (m.pairwise_inScope _) (mem_inScope_iff.mpr ⟨hd, rfl⟩), List.filter_map]
    · simp [Function.comp_def]
    · intro e _ x hx hplace
      obtain ⟨_, -, rfl⟩ := List.mem_map.mp hx
      simp only [Bool.and_eq_true, beq_iff_eq] at hplace
      exact hplace.1
  have husage : ((Document.read path text).commands.flatMap (·.imports)).filter (·.usage == j) =
      u.imports := by
    rw [filter_flatMap_of_pairwise hpairwise (List.mem_of_getElem? hu)]
    · refine List.filter_eq_self.mpr fun x hx => ?_
      rw [usage_of_mem_imports hx, hindex hu]
      exact beq_self_eq_true j
    · intro w _ x hx hplace
      rw [← usage_of_mem_imports hx, hindex hu]
      exact beq_iff_eq.mp hplace
  rw [importsOf, hdocument, husage, List.map_map]
  exact List.map_id _

/-- The names that a command imports are those of its brace group without the comments exactly if
the group holds none and its braces are taken off where the tree has them; a group without comments
and stray braces is of this sort. Its options are those of its bracket groups without the comments
exactly if these groups hold none. -/
theorem importsOf_comments (hd : m.documents[i]? = some (.read path text))
    (hu : (Document.read path text).commands[j]? = some u)
    (hname : Vocabulary.packageImports.contains u.name = true)
    (hgroup : u.firstRequired.isSome = true) :
    ∃ v ∈ (parse text).tree.preorder 0 0, v.command?.map (· j) = some u ∧
      ∃ g, v.tree.children.find? (·.isNode .required) = some g ∧
        ((m.importsOf i j).map (·.name) = namesIn (tokensText (uncommented g.innerTokens)) ↔
          (∀ t ∈ g.innerTokens, t.kind ≠ .comment) ∧ stripGroup g.text = g.delimitedText) ∧
        ((∀ t ∈ g.tokens, t.kind ≠ .comment) → g.NoStrayBrace →
          stripGroup g.text = g.delimitedText) ∧
        (optionPairs u.parameters = optionPairs (v.tree.withoutComments.parameters v.offset) ↔
          ∀ b ∈ v.tree.brackets, ∀ t ∈ b.tokens, t.kind ≠ .comment) ∧
        ((∀ b ∈ v.tree.brackets, ∀ t ∈ b.tokens, t.kind ≠ .comment) → ∀ x ∈ m.importsOf i j,
          x.options = optionMap (v.tree.withoutComments.parameters v.offset)) := by
  obtain ⟨v, hv, t, rest, htree, hkind, rfl⟩ := Document.exists_visit_of_command hu
  have hpart {b : SyntaxTree} (hb : b ∈ v.tree.children) :
      Lexed b.tokens ∧ ∃ behind, b.WellFormed behind :=
    wellFormed_of_subtree ((subtree_of_mem_children hb).trans (subtree_of_mem_preorder hv))
  obtain ⟨group, hfirst⟩ := Option.isSome_iff_exists.mp hgroup
  have htext := find?_parameters v.offset v.tree
  rw [show (v.tree.parameters v.offset).find? (·.isRequired) = some group from hfirst,
    Option.map_some] at htext
  obtain ⟨g, hg, hgtext⟩ := Option.map_eq_some_iff.mp htext.symm
  obtain ⟨hlexed, behind, hwell⟩ := hpart (List.mem_of_find?_eq_some hg)
  obtain ⟨children, rfl⟩ := exists_of_isNode (by simpa using List.find?_some hg)
  rw [tokens_node] at hlexed
  have himports := importsOf_eq hd hu
  rw [CommandUsage.imports, if_pos hname, hfirst] at himports
  refine ⟨v, hv, ?_, _, hg, ?_, fun hcomments hstray => ?_, ?_, fun hcomments x hx => ?_⟩
  · rw [command?_eq_some_iff.mpr ⟨t, rest, htree, hkind, rfl⟩]
    rfl
  · have hnames : (m.importsOf i j).map (·.name) =
        namesIn (stripGroup (node .required children).text) := by
      rw [himports, List.map_map, hgtext, ← Parameter.interior, ← packageNames_eq]
      exact List.map_id _
    rw [hnames]
    exact names_eq_iff hwell.1 hlexed
  · rw [text_node]
    refine stripGroup_required hwell.1 hwell.2 hlexed ⟨fun t ht hkind => ?_, hstray⟩
    exact absurd hkind (hcomments t ht)
  · exact optionPairs_eq_iff v.offset (fun b hb => (hpart (List.mem_of_mem_filter hb)).1)
      fun b hb => (hpart (List.mem_of_mem_filter hb)).2
  · rw [himports] at hx
    obtain ⟨name, -, rfl⟩ := List.mem_map.mp hx
    rw [optionMap, optionMap, joinedOptions_optionalParameters,
      joinedOptions_withoutComments v.offset hcomments]

/-- A list of packages over two lines without a comment. -/
theorem importsOf_comments_none :
    let text := "\\usepackage[draft]\x7bgraphicx,\n  amsmath\x7d".toList
    let m := ofDocuments [.read "main.tex" text]
    (m.importsOf 0 0).map (·.name) = ["graphicx", "amsmath"] ∧
    ∃ v ∈ (parse text).tree.preorder 0 0, ∃ g, v.tree.children.find? (·.isNode .required) = some g ∧
      (m.importsOf 0 0).map (·.name) = namesIn (tokensText (uncommented g.innerTokens)) ∧
      ∀ x ∈ m.importsOf 0 0,
        x.options = optionMap (v.tree.withoutComments.parameters v.offset) := by
  intro text m
  refine ⟨by decide +kernel, ?_⟩
  have hcomments : ∀ t ∈ (parse text).tree.tokens, t.kind ≠ .comment := by decide +kernel
  have hstray : (parse text).tree.NoStrayBrace := by decide +kernel
  obtain ⟨u, hu, hname, hgroup⟩ : ∃ u, (Document.read "main.tex" text).commands[0]? = some u ∧
      Vocabulary.packageImports.contains u.name = true ∧ u.firstRequired.isSome = true :=
    ⟨_, Option.eq_some_of_isSome (by decide +kernel), by decide +kernel, by decide +kernel⟩
  obtain ⟨v, hv, -, g, hg, hnames, hplain, -, hoptions⟩ :=
    importsOf_comments (m := m) (i := 0) rfl hu hname hgroup
  have hsub {b : SyntaxTree} (hb : b ∈ v.tree.children) : Subtree b (parse text).tree :=
    (subtree_of_mem_children hb).trans (subtree_of_mem_preorder hv)
  have hgsub := hsub (List.mem_of_find?_eq_some hg)
  have hgcomments : ∀ t ∈ g.tokens, t.kind ≠ .comment := fun t ht =>
    hcomments t (hgsub.mem_tokens ht)
  refine ⟨v, hv, g, hg, hnames.mpr ⟨fun t ht => ?_, ?_⟩, hoptions fun b hb t ht => ?_⟩
  · exact hgcomments t ((innerTokens_isInfix g).subset ht)
  · exact hplain hgcomments (Everywhere.of_subtree hstray hgsub)
  · exact hcomments t ((hsub (List.mem_of_mem_filter hb)).mem_tokens ht)

/-- A comment at the start of a list of packages becomes part of the first name, and a comment among
the options is read as options. -/
theorem importsOf_comments_taken :
    let text := "\\usepackage[draft%,final\n]\x7b%figures\ngraphicx\x7d".toList
    let m := ofDocuments [.read "main.tex" text]
    m.importsOf 0 0 = [⟨"%figures\ngraphicx", ⟨[("draft%", ""), ("final", "")]⟩, 0⟩] ∧
    ∃ v ∈ (parse text).tree.preorder 0 0,
      v.command?.map (· 0) = (Document.read "main.tex" text).commands[0]? ∧
      (v.tree.children.find? (·.isNode .required)).map
        (fun g => namesIn (tokensText (uncommented g.innerTokens))) = some ["graphicx"] ∧
      optionMap (v.tree.withoutComments.parameters v.offset) = ⟨[("draft", "")]⟩ := by
  decide +kernel

end Manuscript

end TexLint
