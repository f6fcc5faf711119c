import TexLint.Proofs.Document.Delimiters

/-!
# The contents of a parameter

The contents of a parameter leave out its delimiters and the braces of the groups in it. Put back,
these make its text again, but for one case: a brace group that is cut off behind a closing bracket
loses the bracket, which the contents take for its end.

## The model

* `groupEnds` lists how the groups directly in a node end, `Content.written` puts contents back into
  their braces.
* `SyntaxTree.losesBracket`: a brace group ends with a closing bracket, which its contents leave out
  beyond its delimiters.

## What is proved

* `written_map_toContent`: put back, the contents that subtrees give are what these are written as.
* `written_contents`: so are those of every parameter of a source, with what they leave out.
-/

namespace TexLint

open SyntaxTree

/-! ### Contents that are put back -/

/-- How the groups among some trees end: with a closing brace, or with nothing where the source ends
before it. -/
def groupEnds (trees : List SyntaxTree) : List Text :=
  (trees.filter (·.isNode .group)).map fun group =>
    if group.children.getLast?.any (·.isToken .rbrace) then ['}'] else []

/-- Contents as they have been written, given how the groups among them end. -/
def Content.written : List Content → List Text → Text
  | [], _ => []
  | .text t :: contents, ends => t ++ written contents ends
  | .group t :: contents, ends =>
    '{' :: t ++ ends.head?.getD [] ++ written contents ends.tail

/-- The interior of a group is its text without its first character, and without its last one if
that is its closing brace. -/
theorem groupInterior_eq (group : SyntaxTree) : group.groupInterior =
    if group.children.getLast?.any (·.isToken .rbrace) then group.text.tail.dropLast
    else group.text.tail := by
  rw [groupInterior, List.drop_one]
  cases group.children.getLast? <;> rfl

/-- A brace group is written as its interior in its braces. -/
theorem text_of_group {group : SyntaxTree} {behind : List Token} (h : group.WellFormed behind)
    (hlexed : Lexed group.tokens) (hgroup : group.isNode .group = true) :
    group.text = '{' :: group.groupInterior ++
      if group.children.getLast?.any (·.isToken .rbrace) then ['}'] else [] := by
  obtain ⟨children, rfl⟩ := exists_of_isNode hgroup
  rw [tokens_node] at hlexed
  obtain ⟨inner, htext, hclosed⟩ := text_of_braced h.1 (.inl rfl) hlexed
  rw [groupInterior_eq, text_node, htext, List.tail_cons]
  split
  · next hend =>
    obtain ⟨init, rfl⟩ := List.getLast?_eq_some_iff.mp (hclosed hend)
    simp
  · rw [List.append_nil]

/-- Put back, the contents that trees give are what these are written as. -/
theorem written_map_toContent {behind : List Token} {trees : List SyntaxTree}
    (h : AllWellFormed behind trees) (hlexed : Lexed (tokensOfAll trees)) :
    Content.written (trees.map toContent) (groupEnds trees) = textOfAll trees := by
  induction trees with
  | nil => simp [Content.written]
  | cons tree trees ih =>
    rw [tokensOfAll_cons] at hlexed
    have hrest := ih h.2 hlexed.right
    rw [textOfAll_cons, List.map_cons, toContent, groupEnds, List.filter_cons]
    by_cases hgroup : tree.isNode .group = true
    · rw [if_pos hgroup, if_pos hgroup, List.map_cons, Content.written, List.tail_cons,
        List.head?_cons, Option.getD_some, ← text_of_group h.1 hlexed.left hgroup, ← hrest]
      rfl
    · rw [if_neg hgroup, if_neg hgroup, Content.written, ← hrest]
      rfl

/-! ### Parameters -/

/-- The node of a brace group ends with a closing bracket. -/
def SyntaxTree.losesBracket : SyntaxTree → Bool
  | node .required children => children.getLast?.any (·.isToken .rbracket)
  | _ => false

section Parameters

variable {kind : NodeKind} {children : List SyntaxTree} {behind : List Token}

/-- The contents of a parameter are those of what stands behind its opening delimiter, without a
closing one at the end. -/
theorem contentsOf_cons (l : SyntaxTree) (inner : List SyntaxTree) : contentsOf (l :: inner) =
    (if inner.getLast?.any (·.isClosingToken) then inner.dropLast else inner).map toContent := by
  rw [contentsOf, List.drop_succ_cons, List.drop_zero]
  cases inner.getLast? <;> rfl

/-- Tokens are no groups. -/
theorem groupEnds_delimited (l : Token) (content : List SyntaxTree) (ending : List Token) :
    groupEnds (leaf l :: (content ++ ending.map leaf)) = groupEnds content := by
  have hending : (ending.map leaf).filter (·.isNode .group) = [] := by
    refine List.filter_eq_nil_iff.mpr ?_
    intro tree htree
    obtain ⟨t, -, rfl⟩ := List.mem_map.mp htree
    simp [isNode]
  rw [groupEnds, List.filter_cons_of_neg (by simp [isNode]), List.filter_append, hending,
    List.append_nil, groupEnds]

/-- A brace in brackets is that of a group in them. -/
theorem Form.noBrace_of_optional (h : Form .optional children behind) :
    ∀ c ∈ children, c.NoBrace := by
  obtain ⟨l, rest, hchildren, hl⟩ := h.exists_of_optional
  rcases h.noBrace_or_braced (by decide) with hfree | ⟨l', content, ending, hbraced, hl', -⟩
  · exact hfree
  · obtain ⟨hleaf, -⟩ := List.cons_eq_cons.mp (hchildren.symm.trans hbraced)
    cases hleaf
    rw [hl] at hl'
    cases hl'

/-- A parameter starts with its opening delimiter. What follows ends with a closing one if the
parameter is closed, or if it is a brace group that ends with a bracket. -/
theorem Form.exists_of_parameter (h : Form kind children behind)
    (hkind : kind = .required ∨ kind = .optional) : ∃ l inner, children = leaf l :: inner ∧
      (l.kind = .lbrace ∨ l.kind = .lbracket) ∧
      inner.getLast?.any (·.isClosingToken) =
        ((node kind children).isClosed || (node kind children).losesBracket) := by
  rcases hkind with rfl | rfl
  · obtain ⟨l, content, ending, rfl, hl, -⟩ := h.braced (.inr rfl)
    refine ⟨l, content ++ ending, rfl, .inl hl, ?_⟩
    rw [isClosed, losesBracket]
    rcases (content ++ ending).eq_nil_or_concat' with hnil | ⟨init, last, hconcat⟩
    · simp [hnil, isToken, hl]
    · rw [hconcat, ← List.cons_append, List.getLast?_concat, List.getLast?_concat]
      rfl
  · obtain ⟨l, inner, rfl, hl⟩ := h.exists_of_optional
    refine ⟨l, inner, rfl, .inr hl, ?_⟩
    show _ = ((leaf l :: inner).getLast?.any (·.isToken .rbracket) || false)
    rw [Bool.or_false]
    rcases inner.eq_nil_or_concat' with rfl | ⟨init, last, rfl⟩
    · simp [isToken, hl]
    · have hlast := (h.noBrace_of_optional last (by simp)).isToken_rbrace
      rw [← List.cons_append, List.getLast?_concat, List.getLast?_concat, Option.any_some,
        Option.any_some, isClosingToken, hlast, Bool.false_or]

/-- A closing delimiter is written as one character. -/
theorem text_of_isClosingToken {tree : SyntaxTree} (h : tree.isClosingToken = true)
    (hlexed : Lexed tree.tokens) : ∃ r c, tree = leaf r ∧ tree.text = [c] ∧
      (r.kind = .rbracket → c = ']') := by
  cases tree with
  | node kind children => cases h
  | leaf r =>
    rw [text_leaf]
    rcases Bool.or_eq_true_iff.mp h with hr | hr
    · have hr : r.kind = .rbrace := by simpa [isToken] using hr
      refine ⟨r, '}', rfl, hlexed.1.text_eq_singleton (by decide) hr, ?_⟩
      intro hbracket
      rw [hr] at hbracket
      cases hbracket
    · have hr : r.kind = .rbracket := by simpa [isToken] using hr
      exact ⟨r, ']', rfl, hlexed.1.text_eq_singleton (by decide) hr, fun _ => rfl⟩

/-- A parameter that loses a bracket ends with one, and is not closed. -/
theorem isClosed_of_losesBracket {init : List SyntaxTree} {r : Token}
    (h : (node kind (init ++ [leaf r])).losesBracket = true) :
    (node kind (init ++ [leaf r])).isClosed = false ∧ r.kind = .rbracket := by
  cases kind with
  | required =>
    have hr : r.kind = .rbracket := by simpa [losesBracket, isToken] using h
    simp [isClosed, isToken, hr]
  | root | group | optional | command | environment | opening | closing | error => cases h

/-- Put back, the contents of a parameter with the bracket that they may leave out are what stands
between its delimiters. -/
theorem written_contentsOf (h : Form kind children behind)
    (hkind : kind = .required ∨ kind = .optional) (hchildren : AllWellFormed behind children)
    (hlexed : Lexed (tokensOfAll children)) :
    Content.written (contentsOf children) (groupEnds children) ++
        (if (node kind children).losesBracket then [']'] else []) =
      (node kind children).delimitedText := by
  obtain ⟨l, inner, rfl, hl, hclosing⟩ := h.exists_of_parameter hkind
  have htext : (node kind (leaf l :: inner)).text.tail = textOfAll inner := by
    rw [text_node]
    rcases hl with hl | hl
    · rw [textOfAll_of_leaf hlexed (c := '{') (by decide) hl, List.tail_cons]
    · rw [textOfAll_of_leaf hlexed (c := '[') (by decide) hl, List.tail_cons]
  rw [tokensOfAll_cons] at hlexed
  rw [contentsOf_cons, delimitedText, htext]
  cases hlast : inner.getLast?.any (·.isClosingToken) with
  | false =>
    -- Nothing is taken for the end of the parameter.
    obtain ⟨hopen, hkeeps⟩ := Bool.or_eq_false_iff.mp (hclosing.symm.trans hlast)
    have hends := groupEnds_delimited l inner []
    rw [List.map_nil, List.append_nil] at hends
    simp only [Bool.false_eq_true, if_false, hopen, hkeeps, List.append_nil, hends]
    exact written_map_toContent hchildren.2 hlexed.right
  | true =>
    rcases inner.eq_nil_or_concat' with rfl | ⟨content, last, rfl⟩
    · cases hlast
    · rw [List.getLast?_concat, Option.any_some] at hlast
      rw [tokensOfAll_append, tokensOfAll_cons, tokensOfAll_nil, List.append_nil] at hlexed
      obtain ⟨r, c, rfl, hc, hbracket⟩ := text_of_isClosingToken hlast hlexed.right.right
      have hwritten := written_map_toContent (allWellFormed_append.mp hchildren.2).1
        hlexed.right.left
      have hends : groupEnds (leaf l :: (content ++ [leaf r])) = groupEnds content :=
        groupEnds_delimited l content [r]
      have hinner : textOfAll (content ++ [leaf r]) = textOfAll content ++ [c] := by
        rw [textOfAll_append, textOfAll_cons, hc, textOfAll_nil]
        rfl
      rw [if_pos rfl, List.dropLast_concat, hends, hwritten, hinner]
      cases hloses : (node kind (leaf l :: (content ++ [leaf r]))).losesBracket with
      | false =>
        have hclosed : (node kind (leaf l :: (content ++ [leaf r]))).isClosed = true := by
          simpa [hloses, hlast] using hclosing.symm
        simp [hclosed]
      | true =>
        rw [← List.cons_append] at hloses ⊢
        obtain ⟨hopen, hr⟩ := isClosed_of_losesBracket hloses
        rw [hopen]
        simp [hbracket hr]

end Parameters

/-! ### Sources -/

/-- The contents of a parameter lose nothing but the bracket at the end of a brace group that is cut
off: put back into the braces of the groups in it, and with this bracket, they are the text of the
parameter without its opening delimiter and without its closing one, if it has one. -/
theorem written_contents (text : Text) :
    ∀ v ∈ (parse text).tree.preorder 0 0, ∀ p ∈ v.tree.toParameter? v.offset,
      Content.written p.contents (groupEnds v.tree.children) ++
          (if v.tree.losesBracket then [']'] else []) = v.tree.delimitedText := by
  intro v hv p hp
  obtain ⟨hlexed, behind, hwell⟩ := wellFormed_of_subtree (subtree_of_mem_preorder hv)
  generalize v.tree = tree at hlexed hwell hp ⊢
  cases tree with
  | leaf t => cases hp
  | node kind children =>
    rw [tokens_node] at hlexed
    cases kind with
    | required =>
      cases hp
      exact written_contentsOf hwell.1 (.inl rfl) hwell.2 hlexed
    | optional =>
      cases hp
      exact written_contentsOf hwell.1 (.inr rfl) hwell.2 hlexed
    | root | group | command | environment | opening | closing | error => cases hp

/-- In `\cmd{a{b}{[c]` the first group is closed. The second one is cut off, and so is the
parameter. -/
theorem written_contents_nested :
    ∃ v ∈ (parse "\\cmd\x7ba\x7bb\x7d\x7b[c]".toList).tree.preorder 0 0,
      ∃ p ∈ v.tree.toParameter? v.offset,
        p.contents = [.text "a".toList, .group "b".toList, .group "[c]".toList] ∧
          groupEnds v.tree.children = [['}'], []] ∧
          v.tree.delimitedText = "a\x7bb\x7d\x7b[c]".toList := by
  obtain ⟨v, hv, p, hp, hcontents, hends, hloses⟩ :
      ∃ v ∈ (parse "\\cmd\x7ba\x7bb\x7d\x7b[c]".toList).tree.preorder 0 0,
        ∃ p ∈ v.tree.toParameter? v.offset,
          p.contents = [.text "a".toList, .group "b".toList, .group "[c]".toList] ∧
            groupEnds v.tree.children = [['}'], []] ∧ v.tree.losesBracket = false := by
    decide +kernel
  have hwritten := written_contents _ v hv p hp
  rw [hcontents, hends, hloses] at hwritten
  exact ⟨v, hv, p, hp, hcontents, hends, hwritten.symm⟩

/-- The bracket at the end of `\cmd{a]` is neither in the contents nor a delimiter of the group. -/
theorem written_contents_bracket :
    ¬ ∀ v ∈ (parse "\\cmd\x7ba]".toList).tree.preorder 0 0,
      ∀ p ∈ v.tree.toParameter? v.offset,
        Content.written p.contents (groupEnds v.tree.children) = v.tree.delimitedText := by
  decide +kernel

end TexLint
