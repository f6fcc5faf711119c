import TexLint.Proofs.Source.Building
import TexLint.Proofs.Source.Grammar

/-!
# The form of a tree

Whatever is wrong with a source, the nodes of its tree have one of a few forms: a construct that is
cut off lacks its end, but it holds nothing that does not belong into it.

## The model

* `MayStandIn` says which trees a node takes besides its own delimiters, its control sequence and
  its parameters.
* `Form` lists the forms of a node. They depend on the tokens behind it: a group that is not closed
  runs to the end of the source, a command takes all the parameters there are.
* `PartialForm` lists the forms of a construct that is open.
* `Nest.WellFormed` is the invariant of reading: the innermost construct has such a form, and
  closing it leaves a nest that is well formed again.

## What is proved

* `PartialForm.form`: a construct has the form of its node when the coming token or the end of the
  source closes it.
* `Nest.WellFormed.settle`, `Nest.WellFormed.read`: one token keeps the invariant.
* `wellFormed_parse`, `SyntaxTree.WellFormed.of_mem_preorder`: all nodes of the tree of a source
  have their form.
-/

namespace TexLint

open SyntaxTree

/-! ### Forms of nodes -/

namespace SyntaxTree

/-- A tree may stand in a node of the given kind. -/
def MayStandIn (kind : NodeKind) : SyntaxTree → Prop
  | leaf t => t.IsPlain ∧ (kind = .optional → t.kind ≠ .rbracket ∧ ¬ t.CutsOff)
  | node .group _ | node .command _ => True
  | node .environment _ => kind ≠ .optional
  | node .closing _ => kind ≠ .optional ∧ kind ≠ .environment
  | node .error _ => kind = .root ∨ kind = .environment
  | node _ _ => False

/-- A tree is a parameter, of a control sequence that takes optional ones or not. -/
def IsParameter (takesOptional : Bool) (tree : SyntaxTree) : Prop :=
  tree.isNode .required = true ∨ takesOptional = true ∧ tree.isNode .optional = true

theorem exists_of_isNode {kind : NodeKind} {tree : SyntaxTree} (h : tree.isNode kind = true) :
    ∃ children, tree = node kind children := by
  cases tree with
  | leaf t => cases h
  | node k children =>
    obtain rfl : k = kind := beq_iff_eq.mp h
    exact ⟨children, rfl⟩

end SyntaxTree

/-- What a node of some kind holds, given the tokens behind it. -/
inductive Form : NodeKind → List SyntaxTree → List Token → Prop where
  /-- The source. -/
  | root {content : List SyntaxTree} {behind : List Token} :
      (∀ c ∈ content, c.MayStandIn .root) → Form .root content behind
  /-- A brace group. -/
  | braces {kind : NodeKind} {l r : Token} {content : List SyntaxTree} {behind : List Token} :
      kind = .group ∨ kind = .required → l.kind = .lbrace → (∀ c ∈ content, c.MayStandIn kind) →
      r.kind = .rbrace → Form kind (.leaf l :: content ++ [.leaf r]) behind
  /-- A brace group that the source leaves open. -/
  | openBraces {kind : NodeKind} {l : Token} {content : List SyntaxTree} :
      kind = .group ∨ kind = .required → l.kind = .lbrace → (∀ c ∈ content, c.MayStandIn kind) →
      Form kind (.leaf l :: content) []
  /-- A bracket group. -/
  | brackets {l r : Token} {content : List SyntaxTree} {behind : List Token} :
      l.kind = .lbracket → (∀ c ∈ content, c.MayStandIn .optional) → r.kind = .rbracket →
      Form .optional (.leaf l :: content ++ [.leaf r]) behind
  /-- A bracket group that is given up. -/
  | openBrackets {l : Token} {content : List SyntaxTree} {behind : List Token} :
      l.kind = .lbracket → (∀ c ∈ content, c.MayStandIn .optional) →
      (∀ t ∈ behind.head?, t.CutsOff) → Form .optional (.leaf l :: content) behind
  /-- A control sequence with all the parameters there are. -/
  | command {t : Token} {parameters : List SyntaxTree} {behind : List Token} : t.IsOrdinary →
      (∀ p ∈ parameters, p.IsParameter t.takesOptional) → NoParameter t.takesOptional behind →
      Form .command (.leaf t :: parameters) behind
  /-- The beginning of an environment with all the parameters there are. -/
  | opening {t : Token} {parameters : List SyntaxTree} {behind : List Token} : t.isBegin = true →
      (∀ p ∈ parameters, p.IsParameter true) → NoParameter true behind →
      Form .opening (.leaf t :: parameters) behind
  /-- An end with one parameter or with all there are. -/
  | closing {t : Token} {parameters : List SyntaxTree} {behind : List Token} : t.isEnd = true →
      (∀ p ∈ parameters, p.IsParameter false) →
      parameters.length = 1 ∨ NoParameter false behind →
      Form .closing (.leaf t :: parameters) behind
  /-- An environment. -/
  | environment {b e : SyntaxTree} {content : List SyntaxTree} {behind : List Token} :
      b.isNode .opening = true → (∀ c ∈ content, c.MayStandIn .environment) →
      e.isNode .closing = true → Form .environment (b :: content ++ [e]) behind
  /-- An environment that the source leaves open. -/
  | openEnvironment {b : SyntaxTree} {content : List SyntaxTree} : b.isNode .opening = true →
      (∀ c ∈ content, c.MayStandIn .environment) → Form .environment (b :: content) []
  /-- A closing brace where no group is open. -/
  | error {t : Token} {behind : List Token} : t.kind = .rbrace → Form .error [.leaf t] behind

/-- The beginning of an environment is its control sequence with all the parameters there are. -/
theorem Form.exists_of_opening {children : List SyntaxTree} {behind : List Token}
    (h : Form .opening children behind) : ∃ t parameters, children = .leaf t :: parameters ∧
      t.isBegin = true ∧ (∀ p ∈ parameters, p.IsParameter true) ∧ NoParameter true behind := by
  cases h with
  | braces hkind => simp at hkind
  | openBraces hkind => simp at hkind
  | opening ht hparameters hbehind => exact ⟨_, _, rfl, ht, hparameters, hbehind⟩

/-- A command is its control sequence with all the parameters there are. -/
theorem Form.exists_of_command {children : List SyntaxTree} {behind : List Token}
    (h : Form .command children behind) : ∃ t parameters, children = .leaf t :: parameters ∧
      t.IsOrdinary ∧ (∀ p ∈ parameters, p.IsParameter t.takesOptional) ∧
        NoParameter t.takesOptional behind := by
  cases h with
  | braces hkind => simp at hkind
  | openBraces hkind => simp at hkind
  | command ht hparameters hbehind => exact ⟨_, _, rfl, ht, hparameters, hbehind⟩

/-- An optional parameter starts with its bracket. -/
theorem Form.exists_of_optional {children : List SyntaxTree} {behind : List Token}
    (h : Form .optional children behind) :
    ∃ l rest, children = .leaf l :: rest ∧ l.kind = .lbracket := by
  cases h with
  | braces hkind => simp at hkind
  | openBraces hkind => simp at hkind
  | brackets hl => exact ⟨_, _, rfl, hl⟩
  | openBrackets hl => exact ⟨_, _, rfl, hl⟩

namespace SyntaxTree

mutual

/-- A tree before the given tokens has nodes of their forms only. -/
def WellFormed (behind : List Token) : SyntaxTree → Prop
  | leaf _ => True
  | node kind children => Form kind children behind ∧ AllWellFormed behind children

/-- Trees before the given tokens have nodes of their forms only. -/
def AllWellFormed (behind : List Token) : List SyntaxTree → Prop
  | [] => True
  | tree :: trees => tree.WellFormed (tokensOfAll trees ++ behind) ∧ AllWellFormed behind trees

end

theorem allWellFormed_append {behind : List Token} {a b : List SyntaxTree} :
    AllWellFormed behind (a ++ b) ↔
      AllWellFormed (tokensOfAll b ++ behind) a ∧ AllWellFormed behind b := by
  induction a with
  | nil => simp [AllWellFormed]
  | cons tree a ih => simp [AllWellFormed, ih, and_assoc]

theorem allWellFormed_leaf (behind : List Token) (t : Token) : AllWellFormed behind [leaf t] :=
  ⟨trivial, trivial⟩

theorem allWellFormed_singleton {behind : List Token} {tree : SyntaxTree} :
    AllWellFormed behind [tree] ↔ tree.WellFormed behind := by
  simp [AllWellFormed]

end SyntaxTree

/-! ### Forms of open constructs -/

/-- What an open construct can hold. -/
inductive PartialForm : Construct → List SyntaxTree → Prop where
  /-- A brace group of its own. -/
  | group {l : Token} {content : List SyntaxTree} : l.kind = .lbrace →
      (∀ c ∈ content, c.MayStandIn .group) → PartialForm .group (.leaf l :: content)
  /-- A brace group that is a parameter. -/
  | required {l : Token} {content : List SyntaxTree} : l.kind = .lbrace →
      (∀ c ∈ content, c.MayStandIn .required) → PartialForm .required (.leaf l :: content)
  /-- A bracket group. -/
  | brackets {l : Token} {content : List SyntaxTree} : l.kind = .lbracket →
      (∀ c ∈ content, c.MayStandIn .optional) → PartialForm .optional (.leaf l :: content)
  /-- A control sequence with some parameters. -/
  | command {t : Token} {parameters : List SyntaxTree} : t.IsOrdinary →
      (∀ p ∈ parameters, p.IsParameter t.takesOptional) →
      PartialForm (.command t.takesOptional) (.leaf t :: parameters)
  /-- The beginning of an environment with some parameters. -/
  | opening {bare : Bool} {t : Token} {parameters : List SyntaxTree} : t.isBegin = true →
      (∀ p ∈ parameters, p.IsParameter true) → PartialForm (.opening bare) (.leaf t :: parameters)
  /-- An environment that has begun. -/
  | environment {b : SyntaxTree} {content : List SyntaxTree} : b.isNode .opening = true →
      (∀ c ∈ content, c.MayStandIn .environment) → PartialForm (.environment false) (b :: content)
  /-- An environment that has ended. -/
  | ended {b e : SyntaxTree} {content : List SyntaxTree} : b.isNode .opening = true →
      (∀ c ∈ content, c.MayStandIn .environment) → e.isNode .closing = true →
      PartialForm (.environment true) (b :: content ++ [e])
  /-- The end of an environment. -/
  | bareEnd {t : Token} : t.isEnd = true → PartialForm (.closing true) [.leaf t]
  /-- The end of an environment with its parameter. -/
  | namedEnd {t : Token} {p : SyntaxTree} : t.isEnd = true → p.IsParameter false →
      PartialForm (.closing false) [.leaf t, p]
  /-- An end that closes nothing with some parameters. -/
  | strayEnd {t : Token} {parameters : List SyntaxTree} : t.isEnd = true →
      (∀ p ∈ parameters, p.IsParameter false) → PartialForm .strayEnd (.leaf t :: parameters)

namespace PartialForm

variable {construct : Construct} {held content : List SyntaxTree} {behind : List Token}
  {tree : SyntaxTree} {t : Token}

/-- An open construct has the form of its node when the coming token closes it or no token comes. -/
theorem form (h : PartialForm construct held)
    (hbehind : ∀ t ∈ behind.head?, (construct.before t).closes = true) :
    Form construct.kind held behind := by
  have hnone {c : Construct} (hc : ∀ t, (c.before t).closes = false)
      (hbehind : ∀ t ∈ behind.head?, (c.before t).closes = true) : behind = [] := by
    cases behind with
    | nil => rfl
    | cons t behind => simpa [hc t] using hbehind t rfl
  cases h with
  | group hl hcontent =>
    obtain rfl := hnone (fun _ => rfl) hbehind
    exact .openBraces (.inl rfl) hl hcontent
  | required hl hcontent =>
    obtain rfl := hnone (fun _ => rfl) hbehind
    exact .openBraces (.inr rfl) hl hcontent
  | brackets hl hcontent =>
    exact .openBrackets hl hcontent fun t ht => Construct.closes_optional_iff.mp (hbehind t ht)
  | command ht hparameters =>
    refine .command ht hparameters fun t' ht' => ?_
    have hcloses := hbehind t' ht'
    simp only [Construct.before, Bool.not_eq_true', Bool.or_eq_false_iff, beq_eq_false_iff_ne,
      Bool.and_eq_false_imp] at hcloses
    exact hcloses
  | opening ht hparameters =>
    refine .opening ht hparameters fun t' ht' => ?_
    have hcloses := hbehind t' ht'
    simp only [Construct.before, Bool.not_eq_true', Bool.or_eq_false_iff,
      beq_eq_false_iff_ne] at hcloses
    exact ⟨hcloses.1, fun _ => hcloses.2⟩
  | environment hb hcontent =>
    obtain rfl := hnone (fun _ => rfl) hbehind
    exact .openEnvironment hb hcontent
  | ended hb hcontent he => exact .environment hb hcontent he
  | bareEnd ht =>
    refine .closing ht (by simp) (.inr fun t' ht' => ⟨fun hkind => ?_, by simp⟩)
    have hcloses := hbehind t' ht'
    simp [Construct.before, hkind] at hcloses
  | namedEnd ht hp => exact .closing ht (by simpa using hp) (.inl rfl)
  | strayEnd ht hparameters =>
    refine .closing ht hparameters (.inr fun t' ht' => ⟨fun hkind => ?_, by simp⟩)
    have hcloses := hbehind t' ht'
    simp [Construct.before, hkind] at hcloses

/-- A construct that takes elements takes any that may stand in its node. -/
theorem append_element (h : PartialForm construct held) (hkind : construct.TakesElements)
    (htree : tree.MayStandIn construct.kind) : PartialForm construct (held ++ [tree]) := by
  have hmem {kind : NodeKind} {content : List SyntaxTree}
      (hcontent : ∀ c ∈ content, c.MayStandIn kind) (htree : tree.MayStandIn kind) :
      ∀ c ∈ content ++ [tree], c.MayStandIn kind :=
    List.forall_mem_append.mpr ⟨hcontent, List.forall_mem_singleton.mpr htree⟩
  cases h with
  | group hl hcontent => exact .group hl (hmem hcontent htree)
  | required hl hcontent => exact .required hl (hmem hcontent htree)
  | brackets hl hcontent => exact .brackets hl (hmem hcontent htree)
  | environment hb hcontent => exact .environment hb (hmem hcontent htree)
  | command | opening | ended | bareEnd | namedEnd | strayEnd => cases hkind

theorem append_parameter {takesOptional : Bool} {parameters : List SyntaxTree}
    (h : ∀ p ∈ parameters, p.IsParameter takesOptional) (htree : tree.IsParameter takesOptional) :
    ∀ p ∈ parameters ++ [tree], p.IsParameter takesOptional :=
  List.forall_mem_append.mpr ⟨h, List.forall_mem_singleton.mpr htree⟩

/-- A construct takes the node of a part that a token opens in it. -/
theorem append_of_enters {construct' inner : Construct} (h : PartialForm construct held)
    (henters : construct.Enters t construct' inner) (htree : tree.isNode inner.kind = true) :
    PartialForm construct' (held ++ [tree]) := by
  cases henters with
  | commandRequired =>
    cases h with
    | command ht hparameters => exact .command ht (append_parameter hparameters (.inl htree))
  | commandOptional =>
    generalize htakes : true = takesOptional at h
    cases h with
    | command ht hparameters =>
      exact .command ht (append_parameter hparameters (.inr ⟨htakes.symm, htree⟩))
  | openingRequired =>
    cases h with
    | opening ht hparameters => exact .opening ht (append_parameter hparameters (.inl htree))
  | openingOptional =>
    cases h with
    | opening ht hparameters =>
      exact .opening ht (append_parameter hparameters (.inr ⟨rfl, htree⟩))
  | closingRequired =>
    cases h with
    | bareEnd ht => exact .namedEnd ht (.inl htree)
  | strayEndRequired =>
    cases h with
    | strayEnd ht hparameters => exact .strayEnd ht (append_parameter hparameters (.inl htree))
  | ending =>
    cases h with
    | environment hb hcontent => exact .ended hb hcontent htree

/-- A part that a token opens has the form of one that holds the token only. -/
theorem of_enters {construct' inner : Construct} (henters : construct.Enters t construct' inner) :
    PartialForm inner [.leaf t] := by
  cases henters with
  | commandRequired ht | openingRequired ht | closingRequired ht | strayEndRequired ht =>
    exact .required ht (by simp)
  | commandOptional ht | openingOptional ht => exact .brackets ht (by simp)
  | ending ht => exact .bareEnd ht

/-- A construct has the form of its node when a token completes it. -/
theorem form_of_closedBy (h : PartialForm construct held) (hclosed : construct.ClosedBy t) :
    Form construct.kind (held ++ [.leaf t]) behind := by
  cases hclosed with
  | group ht =>
    cases h with
    | group hl hcontent => exact .braces (.inl rfl) hl hcontent ht
  | required ht =>
    cases h with
    | required hl hcontent => exact .braces (.inr rfl) hl hcontent ht
  | optional ht =>
    cases h with
    | brackets hl hcontent => exact .brackets hl hcontent ht

end PartialForm

/-! ### The invariant of reading -/

namespace Nest

/-- The innermost construct has one of its forms, and when it is closed, the nest around it is
well formed. -/
inductive WellFormed : Nest → List Token → Prop where
  /-- The source itself. -/
  | source {content : List SyntaxTree} {behind : List Token} :
      (∀ c ∈ content.reverse, c.MayStandIn .root) → AllWellFormed behind content.reverse →
      WellFormed (.root content) behind
  /-- An open construct. Its node holds what it holds now and what it takes of the coming
  tokens. -/
  | within {construct : Construct} {content : List SyntaxTree} {outer : Nest}
      {behind : List Token} : PartialForm construct content.reverse →
      AllWellFormed behind content.reverse →
      (∀ tree behind', tree.isNode construct.kind = true →
        tree.tokens ++ behind' = tokensOfAll content.reverse ++ behind →
        tree.WellFormed behind' → WellFormed (outer.add tree) behind') →
      WellFormed (.inside construct content outer) behind

variable {nest outer : Nest} {construct construct' inner : Construct} {content : List SyntaxTree}
  {behind : List Token} {tree : SyntaxTree} {t : Token}

theorem WellFormed.partialForm (h : (inside construct content outer).WellFormed behind) :
    PartialForm construct content.reverse := by
  cases h with
  | within hform => exact hform

/-- A well formed tree may be put into a construct, which may be further on then. -/
theorem WellFormed.add_inside
    (h : (inside construct content outer).WellFormed (tree.tokens ++ behind))
    (hkind : construct'.kind = construct.kind)
    (hform : PartialForm construct' (content.reverse ++ [tree])) (htree : tree.WellFormed behind) :
    ((inside construct' content outer).add tree).WellFormed behind := by
  cases h with
  | within _ hcontent houter =>
    refine .within (by simpa using hform) ?_ fun node behind' hnode htokens hwell => ?_
    · rw [List.reverse_cons, allWellFormed_append, allWellFormed_singleton]
      exact ⟨by simpa using hcontent, htree⟩
    · exact houter node behind' (hkind ▸ hnode) (by simpa using htokens) hwell

/-- A tree may be put into what is innermost. -/
def Admits : Nest → SyntaxTree → Prop
  | .root _, tree => tree.MayStandIn .root
  | .inside construct _ _, tree => ∀ held, PartialForm construct held →
    PartialForm construct (held ++ [tree])

theorem WellFormed.add (h : nest.WellFormed (tree.tokens ++ behind)) (hadmits : nest.Admits tree)
    (htree : tree.WellFormed behind) : (nest.add tree).WellFormed behind := by
  cases nest with
  | root content =>
    cases h with
    | source hplace hcontent =>
      refine .source ?_ ?_
      · rw [List.reverse_cons]
        exact List.forall_mem_append.mpr ⟨hplace, List.forall_mem_singleton.mpr hadmits⟩
      · rw [List.reverse_cons, allWellFormed_append, allWellFormed_singleton]
        exact ⟨by simpa using hcontent, htree⟩
  | inside construct content outer => exact h.add_inside rfl (hadmits _ h.partialForm) htree

/-- What a construct holds that a token has just opened. -/
theorem tokensOfAll_opened (t : Token) (behind : List Token) :
    tokensOfAll [leaf t].reverse ++ behind = t :: behind := by
  simp

/-- A token may open a construct, after which what is around it is further on. -/
theorem WellFormed.advance (h : (inside construct content outer).WellFormed (t :: behind))
    (hkind : construct'.kind = construct.kind) (hinner : PartialForm inner [.leaf t])
    (happend : ∀ held tree, PartialForm construct held → tree.isNode inner.kind = true →
      PartialForm construct' (held ++ [tree])) :
    ((inside construct' content outer).enter inner t).WellFormed behind := by
  refine .within hinner (allWellFormed_leaf behind t) ?_
  intro tree behind' hnode htokens htree
  rw [tokensOfAll_opened] at htokens
  rw [← htokens] at h
  exact h.add_inside hkind (happend _ _ h.partialForm hnode) htree

/-- A token may open a construct. -/
theorem WellFormed.enter (h : nest.WellFormed (t :: behind)) (hinner : PartialForm inner [.leaf t])
    (hadmits : ∀ tree, tree.isNode inner.kind = true → nest.Admits tree) :
    (nest.enter inner t).WellFormed behind := by
  refine .within hinner (allWellFormed_leaf behind t) ?_
  intro tree behind' hnode htokens htree
  rw [tokensOfAll_opened] at htokens
  exact (htokens ▸ h).add (hadmits tree hnode) htree

/-- A token may open the beginning of an environment. -/
theorem WellFormed.begin (h : nest.WellFormed (t :: behind)) (ht : t.isBegin = true)
    (hadmits : ∀ tree, tree.isNode .environment = true → nest.Admits tree) :
    ((inside (.environment false) [] nest).enter (.opening true) t).WellFormed behind := by
  refine .within (.opening ht (by simp)) (allWellFormed_leaf behind t) ?_
  intro opening behind' hopening htokens hwell
  have hbegun : AllWellFormed behind' [opening] := allWellFormed_singleton.mpr hwell
  refine .within (.environment hopening (by simp)) hbegun ?_
  intro tree behind'' hnode htokens' htree
  rw [tokensOfAll_opened] at htokens
  rw [List.reverse_singleton, tokensOfAll_cons, tokensOfAll_nil, List.append_nil,
    htokens] at htokens'
  exact (htokens' ▸ h).add (hadmits tree hnode) htree

/-- A token may complete the innermost construct. -/
theorem WellFormed.close (h : (inside construct content outer).WellFormed (t :: behind))
    (hform : PartialForm construct content.reverse →
      Form construct.kind (content.reverse ++ [.leaf t]) behind) :
    (outer.add (close construct (.leaf t :: content))).WellFormed behind := by
  cases h with
  | within hpartial hcontent houter =>
    refine houter _ _ (by simp [Nest.close, isNode]) (by simp [Nest.close]) ?_
    rw [Nest.close, List.reverse_cons]
    refine ⟨hform hpartial, ?_⟩
    rw [allWellFormed_append]
    exact ⟨by simpa using hcontent, allWellFormed_leaf behind t⟩

/-- The kind of node that what is innermost becomes. -/
def place : Nest → NodeKind
  | .root _ => .root
  | .inside construct _ _ => construct.kind

/-- A token may be read as an element of what is innermost. -/
theorem WellFormed.readElement (h : nest.WellFormed (t :: behind))
    (hadmits : ∀ tree, tree.MayStandIn nest.place → nest.Admits tree)
    (hbrace : t.kind = .rbrace → nest.place = .root ∨ nest.place = .environment)
    (hoptional : nest.place = .optional → t.kind ≠ .rbracket ∧ ¬ t.CutsOff)
    (hend : nest.place = .environment → t.isEnd = false) :
    (nest.readElement t).1.WellFormed behind := by
  have hnode {kind : NodeKind} (hplace : ∀ children, (node kind children).MayStandIn nest.place)
      (tree : SyntaxTree) (htree : tree.isNode kind = true) : nest.Admits tree := by
    obtain ⟨children, rfl⟩ := exists_of_isNode htree
    exact hadmits _ (hplace children)
  have hcuts (hcuts : t.CutsOff) : nest.place ≠ .optional :=
    fun hplace => (hoptional hplace).2 hcuts
  rw [Nest.readElement]
  split
  · next hkind =>
    split
    · next hbegin =>
      exact h.begin hbegin (hnode fun _ => hcuts (.inr (.inl hbegin)))
    · next hbegin =>
      split
      · next hisEnd =>
        have henvironment : nest.place ≠ .environment := fun hplace => by
          simp [hend hplace] at hisEnd
        exact h.enter (.strayEnd hisEnd (by simp))
          (hnode fun _ => ⟨hcuts (.inr (.inr (.inl hisEnd))), henvironment⟩)
      · next hisEnd =>
        rw [Bool.not_eq_true] at hbegin hisEnd
        exact h.enter (.command ⟨hkind, hbegin, hisEnd⟩ (by simp)) (hnode fun _ => trivial)
  · next hkind =>
    exact h.enter (.group hkind (by simp)) (hnode fun _ => trivial)
  · next hkind =>
    have herror : (node .error [leaf t]).WellFormed behind :=
      ⟨.error hkind, allWellFormed_leaf behind t⟩
    exact WellFormed.add (by simpa using h) (hadmits _ (hbrace hkind)) herror
  · next hcommand hlbrace hrbrace =>
    have hplace : (leaf t).MayStandIn nest.place := ⟨⟨hcommand, hlbrace, hrbrace⟩, hoptional⟩
    exact WellFormed.add (by simpa using h) (hadmits _ hplace) trivial

/-- Reading a token keeps a nest well formed of which it ends no construct. -/
theorem WellFormed.read (h : nest.WellFormed (t :: behind)) (hopen : ∀ construct content outer,
    nest = inside construct content outer → (construct.before t).closes = false) :
    (nest.read t).1.WellFormed behind := by
  cases nest with
  | root content =>
    rw [Nest.read]
    exact h.readElement (fun _ => id) (fun _ => .inl rfl) (by simp [place]) (by simp [place])
  | inside construct content outer =>
    have hcloses := hopen construct content outer rfl
    have hread : ReadsInside t construct content outer _ := readsInside_read hcloses
    generalize (inside construct content outer).read t = result at hread ⊢
    cases hread with
    | close hclosed => exact h.close fun hform => hform.form_of_closedBy hclosed
    | @enter construct' inner henters =>
      exact h.advance henters.kind_eq (PartialForm.of_enters henters)
        fun held tree hform htree => hform.append_of_enters henters htree
    | misplaced hconstruct hkind =>
      subst hconstruct
      have herror : (node .error [leaf t]).WellFormed behind :=
        ⟨.error hkind, allWellFormed_leaf behind t⟩
      have hadmits : (inside (.environment false) content outer).Admits (node .error [leaf t]) :=
        fun held hform => hform.append_element .environment (.inr rfl)
      exact WellFormed.add (by simpa using h) hadmits herror
    | element helements hclosed henvironment =>
      have hadmits (tree : SyntaxTree)
          (htree : tree.MayStandIn (inside construct content outer).place) :
          (inside construct content outer).Admits tree :=
        fun held hform => hform.append_element helements htree
      cases helements with
      | group =>
        exact h.readElement hadmits (fun ht => absurd (.group ht) hclosed)
          (by simp [place, Construct.kind]) (by simp [place, Construct.kind])
      | required =>
        exact h.readElement hadmits (fun ht => absurd (.required ht) hclosed)
          (by simp [place, Construct.kind]) (by simp [place, Construct.kind])
      | optional =>
        have hcuts : ¬ t.CutsOff := fun hcuts => by
          simp [Construct.closes_optional_iff.mpr hcuts] at hcloses
        exact h.readElement hadmits (fun ht => absurd (.inl ht) hcuts)
          (fun _ => ⟨fun ht => hclosed (.optional ht), hcuts⟩) (by simp [place, Construct.kind])
      | environment =>
        exact h.readElement hadmits (fun _ => .inr rfl) (by simp [place, Construct.kind])
          fun _ => (henvironment rfl).1

theorem settleFrom_singleton (t : Token) (tree : SyntaxTree) (nest : Nest) :
    nest.settleFrom t [tree] = (nest.add tree).settleFrom t [] := by
  cases nest <;> rfl

/-- Closing what a token ends keeps a nest well formed. -/
theorem WellFormed.settle (h : nest.WellFormed (t :: behind)) :
    (nest.settle t).1.WellFormed (t :: behind) := by
  generalize hbehind : t :: behind = coming at h
  induction h with
  | source hplace hcontent => exact .source hplace hcontent
  | @within construct content outer coming hform hcontent houter ih =>
    subst hbehind
    rw [Nest.settle, settleFrom]
    simp only []
    split
    · next hcloses =>
      rw [settleFrom_singleton]
      refine ih _ _ (by simp [Nest.close, isNode]) (by simp [Nest.close]) ⟨?_, hcontent⟩ rfl
      exact hform.form (by simpa using hcloses)
    · exact .within hform hcontent houter

/-- The trees of a source that ends are well formed. -/
theorem WellFormed.trees (h : nest.WellFormed []) :
    (∀ c ∈ nest.trees, c.MayStandIn .root) ∧ AllWellFormed [] nest.trees := by
  generalize hbehind : [] = coming at h
  induction h with
  | source hplace hcontent =>
    subst hbehind
    exact ⟨hplace, hcontent⟩
  | @within construct content outer coming hform hcontent houter ih =>
    subst hbehind
    rw [Nest.trees, treesWith_inside, ← List.nil_append [_], ← treesWith_add]
    exact ih _ _ (by simp [Nest.close, isNode]) (by simp [Nest.close])
      ⟨hform.form (by simp), hcontent⟩ rfl

/-- Reading tokens to the end keeps a nest well formed. -/
theorem WellFormed.foldl_next {tokens : List Token} (h : nest.WellFormed tokens) :
    (tokens.foldl next nest).WellFormed [] := by
  induction tokens generalizing nest with
  | nil => exact h
  | cons t tokens ih =>
    exact ih (h.settle.read fun _ _ _ hnest => closes_of_settleFrom hnest)

end Nest

/-- All nodes of the tree of a source have their form. -/
theorem wellFormed_parse (text : Text) : (parse text).tree.WellFormed [] := by
  have hstart : (Nest.root []).WellFormed (tokenize text) :=
    .source (by simp) (by simp [AllWellFormed])
  obtain ⟨hplace, hcontent⟩ := hstart.foldl_next.trees
  rw [parse_tree]
  exact ⟨.root hplace, hcontent⟩

/-- A part of a well formed tree is well formed before the tokens that stand behind it. -/
theorem SyntaxTree.WellFormed.of_mem_preorder {behind : List Token} {depth offset : Nat}
    {tree : SyntaxTree} {v : Visit} (h : tree.WellFormed behind)
    (hv : v ∈ tree.preorder depth offset) : ∃ before behind',
      tree.tokens ++ behind = before ++ v.tree.tokens ++ behind' ∧
        v.offset = offset + byteLength (tokensText before) ∧ v.tree.WellFormed behind' := by
  induction tree using SyntaxTree.induct generalizing behind depth offset with
  | leaf token =>
    rw [preorder_leaf, List.mem_singleton] at hv
    subst hv
    exact ⟨[], behind, by simp, by simp [tokensText], h⟩
  | node kind children ih =>
    rw [preorder_node, List.mem_cons] at hv
    rcases hv with rfl | hv
    · exact ⟨[], behind, by simp, by simp [tokensText], h⟩
    · obtain ⟨trees, tree, trees', rfl, htree⟩ := mem_preorderOfAll_iff.mp hv
      have hchildren := (allWellFormed_append.mp h.2).2
      obtain ⟨before, behind', htokens, hoffset, hwell⟩ := ih tree (by simp) hchildren.1 htree
      refine ⟨tokensOfAll trees ++ before, behind', ?_, ?_, hwell⟩
      · rw [tokens_node, tokensOfAll_append, tokensOfAll_cons, List.append_assoc, List.append_assoc,
          htokens]
        simp
      · rw [hoffset, tokensText_append, byteLength_append, Nat.add_assoc]
        rfl

end TexLint
