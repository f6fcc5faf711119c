import TexLint.Proofs.Check.ImportLine
import TexLint.Proofs.Source.Exchange
import TexLint.Proofs.Source.LineEnds
import TexLint.Proofs.Source.Settling

/-!
# The imports of a source with one more line

A line that imports a package is read in the middle of whatever is open. The other imports stay
what they are, but for those whose brace group is open there: such a group takes the line.

## The model

* `TakesLine line text text'`: what a brace group has become.
* `Corresponds p G row row'`: the imports among some trees are that of the package and those among
  other trees, with `G` between their brace groups.

## What is proved

* `corresponds_between`: the line is put before a line end.
* `corresponds_atEnd`: the line is put behind the end of the source.
-/

namespace TexLint

open SyntaxTree

/-! ### Imports among trees -/

/-- A text has become another one with a line in it: at its end, or before another line. -/
def TakesLine (line text text' : Text) : Prop :=
  text' = text ∨ ∃ before behind, text = before ++ behind ∧
    text' = before ++ '\n' :: line ++ behind ∧ (behind = [] ∨ behind.head? = some '\n')

/-- Whether a token is a control sequence that imports packages. -/
def Token.isImport (t : Token) : Bool :=
  t.kind == .command && Vocabulary.packageImports.contains (String.ofList t.text)

theorem Token.kind_of_isImport {t : Token} (h : t.isImport = true) : t.kind = .command := by
  rw [isImport, Bool.and_eq_true, beq_iff_eq] at h
  exact h.1

/-- The text of the first brace group among some trees. -/
def firstGroup? (row : List SyntaxTree) : Option Text :=
  (row.find? (·.isNode .required)).map (·.text)

/-- A command stands among some trees. -/
def HasCommand (t : Token) (parameters row : List SyntaxTree) : Prop :=
  ∃ c ∈ row, Subtree (.node .command (.leaf t :: parameters)) c

/-- The imports among some trees are that of a package and those among other trees. -/
structure Corresponds (p : Package) (G : Text → Text → Prop) (row row' : List SyntaxTree) :
    Prop where
  /-- A command that starts with some of them has started with the same control sequence. -/
  head : ∀ t, t.kind = .command → row'.head? = some (.leaf t) → row.head? = some (.leaf t)
  /-- Their first brace groups correspond. -/
  first : Option.Rel G (firstGroup? row) (firstGroup? row')
  /-- Each import is that of the package, or corresponds to an import. -/
  imports : ∀ t parameters', t.isImport = true → HasCommand t parameters' row' →
    .node .command (.leaf t :: parameters') = p.importTree ∨
      ∃ parameters, HasCommand t parameters row ∧
        Option.Rel G (firstGroup? parameters) (firstGroup? parameters')

theorem firstGroup?_append (row rest : List SyntaxTree) :
    firstGroup? (row ++ rest) = (firstGroup? row).or (firstGroup? rest) := by
  rw [firstGroup?, List.find?_append]
  cases h : row.find? (·.isNode .required) <;> simp [firstGroup?, h]

theorem rel_self {G : Text → Text → Prop} (hG : ∀ text, G text text) (o : Option Text) :
    Option.Rel G o o := by
  cases o with
  | none => exact .none
  | some text => exact .some (hG text)

theorem rel_or {G : Text → Text → Prop} {a a' b b' : Option Text} (h : Option.Rel G a a')
    (h' : Option.Rel G b b') : Option.Rel G (a.or b) (a'.or b') := by
  cases h with
  | none => exact h'
  | some h => exact .some h

variable {p : Package} {G G' : Text → Text → Prop} {row row' : List SyntaxTree}

namespace Corresponds

theorem mono (h : Corresponds p G row row') (hG : ∀ text text', G text text' → G' text text') :
    Corresponds p G' row row' := by
  have hrel {o o' : Option Text} (ho : Option.Rel G o o') : Option.Rel G' o o' := by
    cases ho with
    | none => exact .none
    | some ho => exact .some (hG _ _ ho)
  refine ⟨h.head, hrel h.first, fun t parameters' ht hmem => ?_⟩
  exact (h.imports t parameters' ht hmem).imp_right fun ⟨parameters, hmem, hfirst⟩ =>
    ⟨parameters, hmem, hrel hfirst⟩

theorem append_left (h : Corresponds p G row row') (hG : ∀ text, G text text)
    (init : List SyntaxTree) : Corresponds p G (init ++ row) (init ++ row') := by
  refine ⟨fun t ht hhead => ?_, ?_, fun t parameters' ht hmem => ?_⟩
  · cases init with
    | nil => exact h.head t ht hhead
    | cons c init => exact hhead
  · rw [firstGroup?_append, firstGroup?_append]
    exact rel_or (rel_self hG _) h.first
  · obtain ⟨c, hc, hsub⟩ := hmem
    rcases List.mem_append.mp hc with hc | hc
    · exact .inr ⟨parameters', ⟨c, List.mem_append_left _ hc, hsub⟩, rel_self hG _⟩
    · exact (h.imports t parameters' ht ⟨c, hc, hsub⟩).imp_right
        fun ⟨parameters, ⟨d, hd, hsub⟩, hfirst⟩ =>
          ⟨parameters, ⟨d, List.mem_append_right _ hd, hsub⟩, hfirst⟩

theorem append_right (h : Corresponds p G row row') (hne : row' ≠ []) {rest rest' : List SyntaxTree}
    (hfirst : Option.Rel G (firstGroup? rest) (firstGroup? rest'))
    (himports : ∀ t parameters', HasCommand t parameters' rest' →
      ∃ parameters, HasCommand t parameters rest ∧
        Option.Rel G (firstGroup? parameters) (firstGroup? parameters')) :
    Corresponds p G (row ++ rest) (row' ++ rest') := by
  refine ⟨fun t ht hhead => ?_, ?_, fun t parameters' ht hmem => ?_⟩
  · rw [List.head?_append_of_ne_nil _ hne] at hhead
    rw [List.head?_append, h.head t ht hhead]
    rfl
  · rw [firstGroup?_append, firstGroup?_append]
    exact rel_or h.first hfirst
  · obtain ⟨c, hc, hsub⟩ := hmem
    rcases List.mem_append.mp hc with hc | hc
    · exact (h.imports t parameters' ht ⟨c, hc, hsub⟩).imp_right
        fun ⟨parameters, ⟨d, hd, hsub⟩, hfirst⟩ =>
          ⟨parameters, ⟨d, List.mem_append_left _ hd, hsub⟩, hfirst⟩
    · obtain ⟨parameters, ⟨d, hd, hsub⟩, hfirst⟩ := himports t parameters' ⟨c, hc, hsub⟩
      exact .inr ⟨parameters, ⟨d, List.mem_append_right _ hd, hsub⟩, hfirst⟩

/-- Trees may follow, the same ones. -/
theorem append_same (h : Corresponds p G row row') (hne : row' ≠ []) (hG : ∀ text, G text text)
    (rest : List SyntaxTree) : Corresponds p G (row ++ rest) (row' ++ rest) :=
  h.append_right hne (rel_self hG _) fun _ parameters hmem => ⟨parameters, hmem, rel_self hG _⟩

/-- Tokens may follow. -/
theorem append_leaf (h : Corresponds p G row row') (hne : row' ≠ []) (t t' : Token) :
    Corresponds p G (row ++ [.leaf t]) (row' ++ [.leaf t']) := by
  refine h.append_right hne .none fun _ _ ⟨c, hc, hsub⟩ => ?_
  rw [List.mem_singleton.mp hc] at hsub
  cases hsub

/-- A construct that holds the trees corresponds to another one. -/
theorem close (h : Corresponds p G row row') (kind : NodeKind)
    (hG : kind = .required → G (textOfAll row) (textOfAll row')) :
    Corresponds p G [.node kind row] [.node kind row'] := by
  have hfirst (row : List SyntaxTree) : firstGroup? [.node kind row] =
      if kind = .required then some (textOfAll row) else none := by
    by_cases hkind : kind = .required
    · simp [firstGroup?, isNode, hkind]
    · simp [firstGroup?, isNode, hkind, beq_eq_false_iff_ne.mpr hkind]
  refine ⟨fun t ht hhead => ?_, ?_, fun t parameters' ht hcommand => ?_⟩
  · cases hhead
  · rw [hfirst, hfirst]
    split
    · exact .some (hG ‹_›)
    · exact .none
  · obtain ⟨c, hc, hsub⟩ := hcommand
    rw [List.mem_singleton.mp hc] at hsub
    cases hsub with
    | self =>
      have hhead := h.head t (Token.kind_of_isImport ht) rfl
      obtain ⟨parameters, rfl⟩ := List.head?_eq_some_iff.mp hhead
      refine .inr ⟨parameters, ⟨_, List.mem_singleton_self _, .self⟩, ?_⟩
      exact h.first
    | child hc hsub =>
      refine (h.imports t parameters' ht ⟨_, hc, hsub⟩).imp_right ?_
      rintro ⟨parameters, ⟨d, hd, hsub⟩, hfirst⟩
      exact ⟨parameters, ⟨_, List.mem_singleton_self _, .child hd hsub⟩, hfirst⟩

end Corresponds

/-! ### The import itself -/

theorem tokens_importTree (p : Package) : p.importTree.tokens = p.importTokens := by
  have hleaves (tokens : List Token) : tokensOfAll (tokens.map .leaf) = tokens := by
    induction tokens with
    | nil => simp
    | cons t tokens ih => simp [ih]
  rw [Package.importTree, Package.importTokens, Package.optionTrees, Package.optionTokens]
  split <;> simp [hleaves]

theorem text_importTree (hp : p.Plain) : p.importTree.text = p.importCommand.toList := by
  have htokens := Package.tokenize_importCommand hp []
  rw [List.append_nil, tokenize, List.append_nil] at htokens
  rw [SyntaxTree.text, tokens_importTree, ← htokens, tokensText_tokenize]

/-- A command that stands in an import is the import. -/
theorem eq_importTree_of_subtree {t : Token} {parameters : List SyntaxTree}
    (h : Subtree (.node .command (.leaf t :: parameters)) p.importTree) :
    .node .command (.leaf t :: parameters) = p.importTree := by
  have hleaves {kind : NodeKind} (hkind : kind ≠ .command) (tokens : List Token) :
      ¬ Subtree (.node .command (.leaf t :: parameters)) (.node kind (tokens.map .leaf)) := by
    generalize hrow : tokens.map SyntaxTree.leaf = row
    intro hsub
    cases hsub with
    | self => exact hkind rfl
    | child hc hsub =>
      subst hrow
      obtain ⟨token, -, rfl⟩ := List.mem_map.mp hc
      cases hsub
  generalize htree : p.importTree = tree at h
  cases h with
  | self => rfl
  | child hc hsub =>
    cases htree
    rw [List.mem_cons, List.mem_append, List.mem_singleton] at hc
    rcases hc with rfl | hc | rfl
    · cases hsub
    · rw [Package.optionTrees] at hc
      split at hc
      · cases hc
      · rw [List.mem_singleton.mp hc] at hsub
        exact absurd hsub (hleaves (by decide) _)
    · exact absurd hsub (hleaves (by decide) _)

namespace Corresponds

theorem nil (p : Package) (G : Text → Text → Prop) (row : List SyntaxTree)
    (hrow : firstGroup? row = none) : Corresponds p G row [] :=
  ⟨fun _ _ h => (by cases h), hrow ▸ .none, fun _ _ _ ⟨_, hc, _⟩ => (by cases hc)⟩

/-- A tree may follow in which nothing else is imported. -/
theorem concat (h : Corresponds p G row row') {tree : SyntaxTree}
    (htoken : ∀ t, t.kind = .command → tree ≠ .leaf t) (hgroup : tree.isNode .required = false)
    (himport : ∀ t parameters, t.isImport = true →
      Subtree (.node .command (.leaf t :: parameters)) tree →
        .node .command (.leaf t :: parameters) = p.importTree) :
    Corresponds p G row (row' ++ [tree]) := by
  refine ⟨fun t ht hhead => ?_, ?_, fun t parameters' ht ⟨c, hc, hsub⟩ => ?_⟩
  · cases row' with
    | nil => exact absurd (Option.some.inj hhead) (htoken t ht)
    | cons c row' => exact h.head t ht hhead
  · have hnone : firstGroup? [tree] = none := by simp [firstGroup?, hgroup]
    rw [firstGroup?_append, hnone, Option.or_none]
    exact h.first
  · rcases List.mem_append.mp hc with hc | hc
    · exact h.imports t parameters' ht ⟨c, hc, hsub⟩
    · rw [List.mem_singleton.mp hc] at hsub
      exact .inl (himport t parameters' ht hsub)

/-- The import may follow. -/
theorem concat_importTree (h : Corresponds p G row row') :
    Corresponds p G row (row' ++ [p.importTree]) :=
  h.concat (fun _ _ heq => by cases heq) rfl fun _ _ _ => eq_importTree_of_subtree

/-- Blanks may follow. -/
theorem concat_blanks (h : Corresponds p G row row') (blanks : Text) :
    Corresponds p G row (row' ++ [.leaf ⟨.whitespace, blanks⟩]) := by
  refine h.concat (fun t ht heq => ?_) rfl fun _ _ _ hsub => by cases hsub
  cases heq
  cases ht

end Corresponds

/-! ### Trees with other ends -/

/-- Some trees correspond to others, and their texts have different ends. -/
structure Ends (p : Package) (G : Text → Text → Prop) (old new : Text)
    (row row' : List SyntaxTree) : Prop where
  /-- The trees correspond to each other. -/
  corresponds : Corresponds p G row row'
  /-- One end stands in place of the other. -/
  text : ∃ before, textOfAll row = before ++ old ∧ textOfAll row' = before ++ new

namespace Ends

variable {old new : Text} {finished finished' : List SyntaxTree}

/-- A construct that ends takes the end of the text. -/
theorem close (h : Ends p G old new finished.reverse finished'.reverse)
    (hG : ∀ text, G text text) (content : List SyntaxTree) (construct : Construct)
    (hends : construct.kind = .required → ∀ before, G (before ++ old) (before ++ new)) :
    Ends p G old new [Nest.close construct (finished ++ content)].reverse
      [Nest.close construct (finished' ++ content)].reverse := by
  obtain ⟨before, htext, htext'⟩ := h.text
  have htext : textOfAll (content.reverse ++ finished.reverse) =
      textOfAll content.reverse ++ before ++ old := by
    rw [textOfAll_append, htext, List.append_assoc]
  have htext' : textOfAll (content.reverse ++ finished'.reverse) =
      textOfAll content.reverse ++ before ++ new := by
    rw [textOfAll_append, htext', List.append_assoc]
  simp only [Nest.close, List.reverse_append, List.reverse_singleton]
  refine ⟨(h.corresponds.append_left hG _).close _ fun hkind => ?_,
    textOfAll content.reverse ++ before, ?_, ?_⟩
  · rw [htext, htext']
    exact hends hkind _
  · simpa [text_node] using htext
  · simpa [text_node] using htext'

/-- A token ends the same constructs if what has been ended last has another end. -/
theorem settleFrom (t : Token) (nest : Nest)
    (h : Ends p Eq old new finished.reverse finished'.reverse) :
    ∃ (outer : Nest) (trees trees' : List SyntaxTree),
      (nest.settleFrom t finished).1 = outer.addAll trees ∧
        (nest.settleFrom t finished').1 = outer.addAll trees' ∧
          Ends p Eq old new trees.reverse trees'.reverse := by
  induction nest generalizing finished finished' with
  | root content => exact ⟨.root content, finished, finished', rfl, rfl, h⟩
  | inside construct content outer ih =>
    cases hcloses : (construct.before t).closes with
    | true =>
      rw [Nest.settleFrom, Nest.settleFrom]
      simp only [hcloses, if_true]
      refine ih (h.close (fun _ => rfl) content construct fun hrequired => ?_)
      -- No token ends a parameter in braces.
      cases construct <;> cases hrequired
      cases hcloses
    | false =>
      refine ⟨.inside construct content outer, finished, finished', ?_, ?_, h⟩
      · simp only [Nest.settleFrom, hcloses, Bool.false_eq_true, if_false]
        rfl
      · simp only [Nest.settleFrom, hcloses, Bool.false_eq_true, if_false]
        rfl

/-- At the end of the source, all that is open takes the end of the text. -/
theorem treesWith (h : Ends p G old new finished.reverse finished'.reverse)
    (hG : ∀ text, G text text) (hends : ∀ before, G (before ++ old) (before ++ new)) (nest : Nest) :
    Corresponds p G (nest.treesWith finished) (nest.treesWith finished') := by
  induction nest generalizing finished finished' with
  | root content =>
    rw [Nest.treesWith_root, Nest.treesWith_root, List.reverse_append, List.reverse_append]
    exact h.corresponds.append_left hG _
  | inside construct content outer ih =>
    exact ih (h.close hG content construct fun _ => hends)

end Ends

/-! ### Trees with the line between others -/

/-- Some trees correspond to others, with the line before a line end in them. -/
structure Widens (p : Package) (line : Text) (row row' : List SyntaxTree) : Prop where
  /-- The trees correspond to each other. -/
  corresponds : Corresponds p (TakesLine line) row row'
  /-- The line stands before a line end. -/
  text : ∃ before behind, textOfAll row = before ++ '\n' :: behind ∧
    textOfAll row' = before ++ '\n' :: line ++ '\n' :: behind

/-- What trees that differ in the line are part of differs in the line. -/
theorem Widens.of_exchanged {line : Text} {a b : List SyntaxTree} {n : Nat}
    (h : Widens p line a b) (hrow : SyntaxTree.Exchanged a b n row row') :
    Widens p line row row' := by
  have hself (text : Text) : TakesLine line text text := .inl rfl
  induction hrow with
  | here rest =>
    obtain ⟨before, behind, htext, htext'⟩ := h.text
    have hne : b ≠ [] := by
      rintro rfl
      simp at htext'
    refine ⟨h.corresponds.append_same hne hself rest, before, behind ++ textOfAll rest, ?_, ?_⟩
    · rw [textOfAll_append, htext, List.append_assoc, List.cons_append]
    · rw [textOfAll_append, htext', List.append_assoc, List.cons_append]
  | behind tree _ ih =>
    obtain ⟨before, behind, htext, htext'⟩ := ih.text
    refine ⟨ih.corresponds.append_left hself [tree], tree.text ++ before, behind, ?_, ?_⟩
    · rw [textOfAll_cons, htext, List.append_assoc]
    · rw [textOfAll_cons, htext']
      simp only [List.append_assoc]
  | within kind rest _ ih =>
    obtain ⟨before, behind, htext, htext'⟩ := ih.text
    have hclosed := ih.corresponds.close kind fun _ =>
      .inr ⟨before, '\n' :: behind, htext, htext', .inr rfl⟩
    refine ⟨hclosed.append_same (by simp) hself rest, before, behind ++ textOfAll rest, ?_, ?_⟩
    · rw [textOfAll_cons, text_node, htext, List.append_assoc, List.cons_append]
    · rw [textOfAll_cons, text_node, htext', List.append_assoc, List.cons_append]

/-! ### Reading the line -/

section Reading

variable {text text' x y : Text} {a b : List Token}

/-- Blanks end what the control sequence of an import ends. -/
theorem closes_of_importToken {w : Token} (hw : w.kind = .whitespace) {construct : Construct}
    (h : (construct.before Package.importToken).closes = true) :
    (construct.before w).closes = true := by
  have hblank : (Token.mk .whitespace []).isParagraphBreak = false := rfl
  rw [Construct.closes_command rfl rfl rfl rfl hblank construct] at h
  exact Construct.closes_of_whitespace rfl hw hblank h

/-- An import finds nothing to end in what blanks have left open. -/
theorem settle_importToken {w : Token} (hw : w.kind = .whitespace) (nest : Nest)
    (more : List SyntaxTree) : (((nest.settle w).1.addAll more).settle Package.importToken).1 =
      (nest.settle w).1.addAll more := by
  rw [Nest.settle, Nest.settle, Nest.settleFrom_addAll, List.nil_append,
    Nest.settleFrom_of_settled fun _ => closes_of_importToken hw]

theorem close_importTree (p : Package) :
    Nest.close (.command true) p.importTree.children.reverse = p.importTree := by
  rw [Nest.close, List.reverse_reverse]
  rfl

/-- The nests differ in what has been put into the innermost construct. -/
theorem exchanged_addAll (nest : Nest) (trees trees' : List SyntaxTree) :
    Nest.Exchanged trees.reverse trees'.reverse (nest.addAll trees) (nest.addAll trees') := by
  have hhere : SyntaxTree.Exchanged trees.reverse trees'.reverse 0 trees.reverse
      trees'.reverse := by
    simpa using Exchanged.here (a := trees.reverse) (b := trees'.reverse) []
  cases nest with
  | root content =>
    obtain ⟨n, h⟩ := Nest.exchanged_append hhere content
    exact .root h
  | inside construct content outer =>
    obtain ⟨n, h⟩ := Nest.exchanged_append hhere content
    exact .content construct outer h

theorem isParagraphBreak_split (hx : '\n' ∉ x) :
    (Token.mk .whitespace (x ++ ['\n'])).isParagraphBreak = false ∧
    (Token.mk .whitespace (x ++ '\n' :: y)).isParagraphBreak =
      (Token.mk .whitespace ('\n' :: y)).isParagraphBreak := by
  simp [Token.isParagraphBreak, List.count_eq_zero.mpr hx]

/-- What blanks leave open, with a line between their parts and without it. -/
theorem exists_exchanged_between (hp : p.Plain) (hx : '\n' ∉ x) (nest : Nest) : ∃ row row',
    Widens p p.importCommand.toList row row' ∧
      Nest.Exchanged row row' (nest.next ⟨.whitespace, x ++ '\n' :: y⟩)
        ((p.importTokens.foldl Nest.next (nest.next ⟨.whitespace, x ++ ['\n']⟩)).next
          ⟨.whitespace, '\n' :: y⟩) := by
  let whole : Token := ⟨.whitespace, x ++ '\n' :: y⟩
  let first : Token := ⟨.whitespace, x ++ ['\n']⟩
  let last : Token := ⟨.whitespace, '\n' :: y⟩
  obtain ⟨hfirst, hlast⟩ := isParagraphBreak_split (y := y) hx
  let inner := (nest.settleFrom first []).1
  -- The second part of the blanks ends what the blanks as a whole have ended.
  have hwhole : nest.next whole = (inner.settleFrom last []).1.add (.leaf whole) := by
    have hsettle : (nest.settle whole).1 = (nest.settleFrom last []).1 :=
      Nest.settleFrom_congr (Construct.closes_whitespace rfl rfl hlast) [] nest
    rw [Nest.next_whitespace rfl, hsettle,
      Nest.settleFrom_settleFrom fun _ => Construct.closes_of_whitespace rfl rfl hfirst]
  have hline : (p.importTokens.foldl Nest.next (nest.next first)).next last =
      (inner.settleFrom last [p.importTree, .leaf first]).1.add (.leaf last) := by
    have hcloses : ((Construct.command true).before last).closes = true := rfl
    rw [Nest.next_whitespace (t := first) rfl, Nest.add_eq_addAll, p.foldl_next_import,
      settle_importToken rfl, Nest.next_whitespace rfl, Nest.settle, Nest.settleFrom]
    simp only [hcloses, if_true, List.nil_append, close_importTree]
    rw [Nest.settleFrom_addAll]
    rfl
  have hends : Ends p Eq [] (first.text ++ p.importCommand.toList) [].reverse
      [p.importTree, .leaf first].reverse :=
    ⟨((Corresponds.nil p Eq [] rfl).concat_blanks _).concat_importTree, [],
      by simp, by simp [text_importTree hp]⟩
  obtain ⟨outer, trees, trees', htrees, htrees', hends⟩ := hends.settleFrom last inner
  obtain ⟨before, htext, htext'⟩ := hends.text
  have hself (text : Text) : TakesLine p.importCommand.toList text text := .inl rfl
  refine ⟨(.leaf whole :: trees).reverse, (.leaf last :: trees').reverse, ⟨?_, ?_⟩, ?_⟩
  · have hne : trees'.reverse ≠ [] := by
      intro hnil
      simp [hnil, first] at htext'
    rw [List.reverse_cons, List.reverse_cons]
    refine (hends.corresponds.mono fun text text' htext => ?_).append_leaf hne whole last
    exact htext ▸ hself text
  · refine ⟨before ++ x, y, ?_, ?_⟩
    · simp [textOfAll_append, htext, whole]
    · simp [textOfAll_append, htext', first, last]
  · show Nest.Exchanged _ _ (nest.next whole)
      ((p.importTokens.foldl Nest.next (nest.next first)).next last)
    rw [hwhole, hline, htrees, htrees', Nest.add_addAll, Nest.add_addAll]
    exact exchanged_addAll outer _ _

/-- A line that is put before a line end, with no line end in the blanks before it, leaves the
imports what they are, but for those in whose brace group it stands. -/
theorem corresponds_between (hp : p.Plain) (hx : '\n' ∉ x)
    (h : tokenize text = a ++ ⟨.whitespace, x ++ '\n' :: y⟩ :: b)
    (h' : tokenize text' = a ++ ⟨.whitespace, x ++ ['\n']⟩ :: p.importTokens ++
      ⟨.whitespace, '\n' :: y⟩ :: b) : ∃ row row', (parse text).tree = .node .root row ∧
    (parse text').tree = .node .root row' ∧
      Corresponds p (TakesLine p.importCommand.toList) row row' := by
  obtain ⟨trees, trees', hwidens, hnest⟩ :=
    exists_exchanged_between (y := y) hp hx (a.foldl Nest.next (.root []))
  obtain ⟨n, hrow⟩ := hnest.trees b
  refine ⟨_, _, parse_tree text, parse_tree text', ?_⟩
  rw [h, h', List.append_assoc, List.cons_append, List.foldl_append, List.foldl_append,
    List.foldl_cons, List.foldl_cons, List.foldl_append, List.foldl_cons]
  exact (hwidens.of_exchanged hrow).corresponds

/-- The trees of a source that ends with an import. -/
theorem trees_importTokens {nest settled : Nest} {finished : List SyntaxTree}
    (h : (nest.settle Package.importToken).1 = settled.addAll finished) :
    (p.importTokens.foldl Nest.next nest).trees = settled.treesWith (p.importTree :: finished) := by
  rw [p.foldl_next_import, h, Nest.trees, Nest.treesWith_inside, List.nil_append, close_importTree,
    Nest.treesWith_addAll]
  rfl

/-- When the source goes on with the line, what is open takes it. -/
theorem takesLine_more (p : Package) (before : Text) :
    TakesLine p.importCommand.toList before (before ++ '\n' :: p.importCommand.toList) :=
  .inr ⟨before, [], by simp, by simp, .inl rfl⟩

/-- The line goes behind blanks. -/
theorem corresponds_blanks (hp : p.Plain) (x : Text) (nest : Nest) :
    Corresponds p (TakesLine p.importCommand.toList) (nest.next ⟨.whitespace, x⟩).trees
      (p.importTokens.foldl Nest.next (nest.next ⟨.whitespace, x ++ ['\n']⟩)).trees := by
  let blanks : Token := ⟨.whitespace, x⟩
  let longer : Token := ⟨.whitespace, x ++ ['\n']⟩
  let inner := (nest.settleFrom blanks []).1
  have hstart : Ends p Eq x [] [SyntaxTree.leaf blanks].reverse [].reverse :=
    ⟨.nil p Eq _ rfl, [], by simp [blanks], by simp⟩
  -- The line end may have made a paragraph break of the blanks, which ends more.
  obtain ⟨outer, trees, trees', htrees, htrees', hends⟩ := hstart.settleFrom longer inner
  have hold : (nest.next blanks).trees = outer.treesWith trees := by
    have hadded : (nest.next blanks).trees = inner.treesWith [.leaf blanks] := by
      rw [Nest.next_whitespace rfl, Nest.trees, Nest.add_eq_addAll, Nest.treesWith_addAll]
      rfl
    rw [hadded, ← Nest.trees_settleFrom longer, htrees, Nest.trees, Nest.treesWith_addAll]
    rfl
  have hnew : (p.importTokens.foldl Nest.next (nest.next longer)).trees =
      outer.treesWith (p.importTree :: .leaf longer :: trees') := by
    have hsettle : (nest.settle longer).1 = outer.addAll trees' := by
      rw [← htrees']
      exact (Nest.settleFrom_settleFrom (fun _ => Construct.closes_of_append) [] nest).symm
    have hadded : ((nest.next longer).settle Package.importToken).1 =
        (nest.settle longer).1.addAll [.leaf longer] := by
      rw [Nest.next_whitespace rfl, Nest.add_eq_addAll, settle_importToken rfl]
    rw [trees_importTokens hadded, hsettle, Nest.treesWith_addAll]
    rfl
  obtain ⟨before, htext, htext'⟩ := hends.text
  have hself (text : Text) : TakesLine p.importCommand.toList text text := .inl rfl
  have hline : Ends p (TakesLine p.importCommand.toList) x
      (x ++ '\n' :: p.importCommand.toList) trees.reverse
        (p.importTree :: .leaf longer :: trees').reverse := by
    rw [List.reverse_cons, List.reverse_cons]
    refine ⟨((hends.corresponds.mono fun _ _ h => h ▸ hself _).concat_blanks _).concat_importTree,
      before, htext, ?_⟩
    simp [textOfAll_append, htext', text_importTree hp, longer]
  rw [hold, hnew]
  refine hline.treesWith hself (fun before => ?_) outer
  rw [← List.append_assoc]
  exact takesLine_more p (before ++ x)

/-- The line goes behind a backslash, which takes the line end. -/
theorem corresponds_backslash (hp : p.Plain) (nest : Nest) :
    Corresponds p (TakesLine p.importCommand.toList) (nest.next ⟨.command, ['\\']⟩).trees
      (p.importTokens.foldl Nest.next (nest.next escapedLineEnd)).trees := by
  let backslash : Token := ⟨.command, ['\\']⟩
  have hsettle : (nest.settle backslash).1 = (nest.settle escapedLineEnd).1 :=
    Nest.settleFrom_congr (Construct.closes_ordinary rfl rfl rfl rfl rfl rfl) [] nest
  have hold : (nest.next backslash).trees =
      (nest.settle escapedLineEnd).1.treesWith [.node .command [.leaf backslash]] := by
    rw [Nest.next_command rfl rfl rfl, Nest.trees, Nest.treesWith_inside, hsettle]
    rfl
  have hnew : (p.importTokens.foldl Nest.next (nest.next escapedLineEnd)).trees =
      (nest.settle escapedLineEnd).1.treesWith
        [p.importTree, .node .command [.leaf escapedLineEnd]] := by
    have hcloses (takesOptional : Bool) :
        ((Construct.command takesOptional).before Package.importToken).closes = true := by
      cases takesOptional <;> rfl
    refine trees_importTokens ?_
    rw [Nest.next_command rfl rfl rfl, Nest.settle, Nest.settleFrom]
    simp only [hcloses, if_true]
    refine Nest.settleFrom_of_settled (fun construct hends => ?_) [] _ nest
    exact (Construct.closes_ordinary rfl rfl rfl rfl rfl rfl construct).trans hends
  have hline : Ends p (TakesLine p.importCommand.toList) ['\\']
      ('\\' :: '\n' :: p.importCommand.toList)
        [SyntaxTree.node .command [.leaf backslash]].reverse
          [p.importTree, .node .command [.leaf escapedLineEnd]].reverse := by
    refine ⟨((Corresponds.nil p _ _ rfl).concat (fun _ _ h => by cases h) rfl ?_).concat_importTree,
      [], by simp [backslash], by simp [text_importTree hp, escapedLineEnd]⟩
    intro t parameters ht hsub
    cases hsub with
    | self => cases ht
    | child hc hsub =>
      rw [List.mem_singleton.mp hc] at hsub
      cases hsub
  rw [hold, hnew]
  refine hline.treesWith (fun _ => .inl rfl) (fun before => ?_) _
  simpa using takesLine_more p (before ++ ['\\'])

/-- The line goes behind any other token. -/
theorem corresponds_newline (hp : p.Plain) (nest : Nest) :
    Corresponds p (TakesLine p.importCommand.toList) nest.trees
      (p.importTokens.foldl Nest.next (nest.next ⟨.whitespace, ['\n']⟩)).trees := by
  let newline : Token := ⟨.whitespace, ['\n']⟩
  have hnew : (p.importTokens.foldl Nest.next (nest.next newline)).trees =
      (nest.settle newline).1.treesWith [p.importTree, .leaf newline] := by
    refine trees_importTokens ?_
    rw [Nest.next_whitespace rfl, Nest.add_eq_addAll, settle_importToken rfl]
  have hline : Ends p (TakesLine p.importCommand.toList) [] ('\n' :: p.importCommand.toList)
      [].reverse [p.importTree, .leaf newline].reverse :=
    ⟨((Corresponds.nil p _ _ rfl).concat_blanks _).concat_importTree, [],
      by simp, by simp [text_importTree hp, newline]⟩
  have hold : nest.trees = (nest.settle newline).1.treesWith [] :=
    (Nest.trees_settleFrom newline [] nest).symm
  rw [hold, hnew]
  exact hline.treesWith (fun _ => .inl rfl)
    (fun before => by simpa using takesLine_more p before) _

/-- A line that is put behind the end of a source leaves the imports what they are, but for those
in whose brace group it stands. -/
theorem corresponds_atEnd (hp : p.Plain) (text : Text) : ∃ row row',
    (parse text).tree = .node .root row ∧
    (parse (text ++ '\n' :: p.importCommand.toList)).tree = .node .root row' ∧
      Corresponds p (TakesLine p.importCommand.toList) row row' := by
  have htokens : tokenize (text ++ '\n' :: p.importCommand.toList) =
      tokenize (text ++ ['\n']) ++ p.importTokens := by
    have hline : text ++ ['\n'] = [] ∨ (text ++ ['\n']).getLast? = some '\n' := .inr (by simp)
    have hread := tokenize_line hp hline []
    rwa [List.append_nil, tokenize, List.append_nil, ← List.append_cons] at hread
  refine ⟨_, _, parse_tree text, parse_tree _, ?_⟩
  rw [htokens]
  rcases tokenize_concat_newline text with ⟨a, x, h, h'⟩ | ⟨a, h, h'⟩ | h'
  · rw [h, h', List.foldl_append, List.foldl_append, List.foldl_append]
    exact corresponds_blanks hp x _
  · rw [h, h', List.foldl_append, List.foldl_append, List.foldl_append]
    exact corresponds_backslash hp _
  · rw [h', List.foldl_append, List.foldl_append]
    exact corresponds_newline hp _

end Reading

end TexLint
