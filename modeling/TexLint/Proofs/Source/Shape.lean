import TexLint.Proofs.Source.Faults

/-!
# The shape of a syntax tree

Recovery from what is wrong with a source does not change what its nodes look like: each kind of
node has one shape, and a part that is missing is missing only where the source gives cause.

## The model

* `NodeKind.Shape` says what a node of each kind holds, given the tokens behind it.
* `SyntaxTree.Shaped` adds what a node may not hold: a token without a place, or something behind
  a bracket group that is given up.

## What is proved

* `SyntaxTree.WellFormed.shaped`: what has its form has this shape.
* `shaped_and_faults_parse`: the tree of any source has this shape all over, and the reports are
  its faults.
-/

namespace TexLint

open SyntaxTree

/-- What a node of some kind holds, given the tokens behind it. -/
def NodeKind.Shape (kind : NodeKind) (children : List SyntaxTree) (behind : List Token) : Prop :=
  match kind with
  | .root => True
  | .command => ∃ t parameters, children = .leaf t :: parameters ∧ t.IsOrdinary ∧
      ∀ p ∈ parameters, p.IsParameter t.takesOptional
  | .group | .required => Braced children behind
  | .optional => ∃ l content ending, children = .leaf l :: (content ++ ending) ∧
      l.kind = .lbracket ∧ (∀ c ∈ content, c.isToken .rbracket = false) ∧
        ((∃ r, ending = [.leaf r] ∧ r.kind = .rbracket) ∨
          ending = [] ∧ ∀ t ∈ behind.head?, t.CutsOff)
  | .environment => ∃ b content ending, children = b :: (content ++ ending) ∧
      b.isNode .opening = true ∧ (∀ c ∈ content, c.isNode .closing = false) ∧
        ((∃ e, ending = [e] ∧ e.isNode .closing = true) ∨ ending = [] ∧ behind = [])
  | .opening => ∃ t parameters, children = .leaf t :: parameters ∧ t.isBegin = true ∧
      ∀ p ∈ parameters, p.IsParameter true
  | .closing => ∃ t parameters, children = .leaf t :: parameters ∧ t.isEnd = true ∧
      ∀ p ∈ parameters, p.IsParameter false
  | .error => ∃ t, children = [.leaf t] ∧ t.kind = .rbrace

namespace SyntaxTree

/-- A bracket group without its closing bracket. -/
def IsCutOff (tree : SyntaxTree) : Prop :=
  tree.isNode .optional = true ∧ tree.children.getLast?.any (isToken .rbracket) = false

/-- A tree before the given tokens looks as its kind does. A token without a place stands in the
source itself or in an environment, a bracket group that is cut off is the last of its row. -/
def Shaped (behind : List Token) : SyntaxTree → Prop
  | leaf _ => True
  | node kind children => kind.Shape children behind ∧
      (∀ c ∈ children, c.isNode .error = true → kind = .root ∨ kind = .environment) ∧
      ∀ before c after, children = before ++ c :: after → c.IsCutOff → after = []

variable {kind : NodeKind} {children : List SyntaxTree} {behind : List Token}
  {tree p : SyntaxTree}

theorem MayStandIn.isToken_rbracket (h : tree.MayStandIn .optional) :
    tree.isToken .rbracket = false := by
  cases tree with
  | leaf t => exact beq_eq_false_iff_ne.mpr (h.2 rfl).1
  | node kind children => rfl

theorem MayStandIn.isNode_closing (h : tree.MayStandIn .environment) :
    tree.isNode .closing = false := by
  cases tree with
  | leaf t => rfl
  | node k children =>
    rw [isNode, beq_eq_false_iff_ne]
    rintro rfl
    exact h.2 rfl

theorem MayStandIn.isNode_optional (h : tree.MayStandIn kind) : tree.isNode .optional = false := by
  cases tree with
  | leaf t => rfl
  | node k children =>
    rw [isNode, beq_eq_false_iff_ne]
    rintro rfl
    exact h

theorem MayStandIn.of_error (h : tree.MayStandIn kind) (herror : tree.isNode .error = true) :
    kind = .root ∨ kind = .environment := by
  obtain ⟨children, rfl⟩ := exists_of_isNode herror
  exact h

/-- A tree is a node of one kind at most. -/
theorem isNode_inj {k : NodeKind} (h : tree.isNode kind = true) (hk : tree.isNode k = true) :
    kind = k := by
  obtain ⟨children, rfl⟩ := exists_of_isNode h
  exact beq_iff_eq.mp hk

theorem IsParameter.not_error {takesOptional : Bool} (h : p.IsParameter takesOptional) :
    ¬ p.isNode .error = true := fun herror =>
  h.elim (fun h => by cases isNode_inj h herror) fun h => by cases isNode_inj h.2 herror

end SyntaxTree

namespace Form

variable {kind : NodeKind} {children : List SyntaxTree} {behind : List Token}

/-- A node of some form has the shape of its kind. -/
theorem shape (h : Form kind children behind) : kind.Shape children behind := by
  by_cases hbraced : kind = .group ∨ kind = .required
  · have hshape := h.braced hbraced
    rcases hbraced with rfl | rfl <;> exact hshape
  cases h with
  | root => trivial
  | braces hkind | openBraces hkind => exact absurd hkind hbraced
  | brackets hl hcontent hr =>
    exact ⟨_, _, _, rfl, hl, fun c hc => (hcontent c hc).isToken_rbracket, .inl ⟨_, rfl, hr⟩⟩
  | openBrackets hl hcontent hbehind =>
    exact ⟨_, _, [], by simp, hl, fun c hc => (hcontent c hc).isToken_rbracket,
      .inr ⟨rfl, hbehind⟩⟩
  | command ht hparameters => exact ⟨_, _, rfl, ht, hparameters⟩
  | opening ht hparameters => exact ⟨_, _, rfl, ht, hparameters⟩
  | closing ht hparameters => exact ⟨_, _, rfl, ht, hparameters⟩
  | environment hb hcontent he =>
    exact ⟨_, _, _, rfl, hb, fun c hc => (hcontent c hc).isNode_closing, .inl ⟨_, rfl, he⟩⟩
  | openEnvironment hb hcontent =>
    exact ⟨_, _, [], by simp, hb, fun c hc => (hcontent c hc).isNode_closing, .inr ⟨rfl, rfl⟩⟩
  | error ht => exact ⟨_, rfl, ht⟩

/-- The children of a node are its delimiters, its control sequence, what may stand in it, or its
parameters. -/
theorem child_cases (h : Form kind children behind) {c : SyntaxTree} (hc : c ∈ children) :
    (∃ t, c = .leaf t) ∨ c.isNode .opening = true ∨ c.isNode .closing = true ∨
      c.MayStandIn kind ∨ ∃ takesOptional, c.IsParameter takesOptional := by
  cases h <;> grind

theorem kind_of_error (h : Form kind children behind) {c : SyntaxTree} (hc : c ∈ children)
    (herror : c.isNode .error = true) : kind = .root ∨ kind = .environment := by
  rcases h.child_cases hc with ⟨t, rfl⟩ | hopening | hclosing | hplace | ⟨_, hparameter⟩
  · cases herror
  · cases isNode_inj hopening herror
  · cases isNode_inj hclosing herror
  · exact hplace.of_error herror
  · exact absurd herror hparameter.not_error

/-- A bracket group stands among the parameters of a node, and what follows it does so, too. -/
theorem parameters_behind_optional (h : Form kind children behind) {before after : List SyntaxTree}
    {c : SyntaxTree} (hchildren : children = before ++ c :: after)
    (hoptional : c.isNode .optional = true) : ∀ p ∈ after, ∃ takesOptional,
      p.IsParameter takesOptional := by
  have hleaf (t : Token) : c ≠ .leaf t := by
    rintro rfl
    cases hoptional
  have hplace {kind : NodeKind} : ¬ c.MayStandIn kind := fun hplace => by
    simp [hplace.isNode_optional] at hoptional
  have hopening : ¬ c.isNode .opening = true := fun h => by cases isNode_inj h hoptional
  have hclosing : ¬ c.isNode .closing = true := fun h => by cases isNode_inj h hoptional
  have hmem : c ∈ children := by simp [hchildren]
  have hparameters {t : Token} {parameters : List SyntaxTree} {takesOptional : Bool}
      (hform : children = .leaf t :: parameters)
      (hparameters : ∀ p ∈ parameters, p.IsParameter takesOptional) :
      ∀ p ∈ after, ∃ takesOptional, p.IsParameter takesOptional := by
    rw [hform] at hchildren
    intro p hp
    cases before with
    | nil =>
      obtain ⟨hfirst, -⟩ := List.cons.inj hchildren
      exact absurd hfirst.symm (hleaf t)
    | cons first before =>
      obtain ⟨-, hrest⟩ := List.cons.inj hchildren
      exact ⟨takesOptional, hparameters p (by simp [hrest, hp])⟩
  cases h with
  | root hcontent => exact absurd (hcontent c hmem) hplace
  | braces _ _ hcontent | brackets _ hcontent => grind
  | openBraces _ _ hcontent | openBrackets _ hcontent => grind
  | command _ hp | opening _ hp | closing _ hp => exact hparameters rfl hp
  | environment _ hcontent => grind
  | openEnvironment _ hcontent => grind
  | error => grind

/-- A bracket group that is cut off stands before what cuts it off. -/
theorem cutsOff_of_isCutOff {c : SyntaxTree} (h : c.WellFormed behind) (hc : c.IsCutOff) :
    ∀ t ∈ behind.head?, t.CutsOff := by
  obtain ⟨hoptional, hlast⟩ := hc
  obtain ⟨parts, rfl⟩ := exists_of_isNode hoptional
  cases h.1 with
  | braces hkind => simp at hkind
  | openBraces hkind => simp at hkind
  | brackets _ _ hr =>
    rw [SyntaxTree.children, List.getLast?_concat] at hlast
    simp [isToken, hr] at hlast
  | openBrackets _ _ hbehind => exact hbehind

end Form

namespace SyntaxTree

variable {kind : NodeKind} {behind : List Token} {tree p : SyntaxTree}

/-- A parameter starts with its opening brace or bracket. -/
theorem IsParameter.exists_head {takesOptional : Bool} (hp : p.IsParameter takesOptional)
    (h : p.WellFormed behind) :
    ∃ l rest, p.tokens = l :: rest ∧ (l.kind = .lbrace ∨ l.kind = .lbracket) := by
  rcases hp with hrequired | ⟨-, hoptional⟩
  · obtain ⟨parts, rfl⟩ := exists_of_isNode hrequired
    obtain ⟨l, content, ending, rfl, hl, -⟩ := h.1.braced (.inr rfl)
    exact ⟨l, _, by rw [tokens_node, tokensOfAll_cons, tokens_leaf]; rfl, .inl hl⟩
  · obtain ⟨parts, rfl⟩ := exists_of_isNode hoptional
    obtain ⟨l, rest, rfl, hl⟩ := h.1.exists_of_optional
    exact ⟨l, _, by rw [tokens_node, tokensOfAll_cons, tokens_leaf]; rfl, .inr hl⟩

/-- What cuts a bracket group off begins no parameter. -/
theorem not_cutsOff {l : Token} (hl : l.kind = .lbrace ∨ l.kind = .lbracket) : ¬ l.CutsOff := by
  rintro (h | h | h | h)
  · rcases hl with hl | hl <;> simp [hl] at h
  · rcases hl with hl | hl <;> simp [Token.kind_of_isBegin h] at hl
  · rcases hl with hl | hl <;> simp [Token.kind_of_isEnd h] at hl
  · rcases hl with hl | hl <;> simp [Token.isParagraphBreak, hl] at h

/-- Nothing follows a bracket group that is cut off. -/
theorem WellFormed.eq_nil_of_isCutOff {before after : List SyntaxTree} {c : SyntaxTree}
    (h : (node kind (before ++ c :: after)).WellFormed behind) (hc : c.IsCutOff) : after = [] := by
  have hrest := (allWellFormed_append.mp h.2).2
  have hcuts := Form.cutsOff_of_isCutOff hrest.1 hc
  cases after with
  | nil => rfl
  | cons p after =>
    obtain ⟨takesOptional, hp⟩ :=
      h.1.parameters_behind_optional rfl hc.1 p List.mem_cons_self
    obtain ⟨l, rest, htokens, hl⟩ := hp.exists_head hrest.2.1
    have hhead : l.CutsOff := hcuts l (by rw [tokensOfAll_cons, htokens]; rfl)
    exact absurd hhead (not_cutsOff hl)

/-- What has its form looks as its kind does. -/
theorem WellFormed.shaped (h : tree.WellFormed behind) : tree.Shaped behind := by
  cases tree with
  | leaf t => trivial
  | node kind children =>
    refine ⟨h.1.shape, fun c hc herror => h.1.kind_of_error hc herror, ?_⟩
    intro before c after hchildren hc
    subst hchildren
    exact h.eq_nil_of_isCutOff hc

end SyntaxTree

/-- Each part of the tree of a source looks as its kind does before the tokens that stand behind
it in the source. The reports are the faults of the tree, so there is one for each of them. -/
theorem shaped_and_faults_parse (text : Text) :
    (∀ v ∈ (parse text).tree.preorder 0 0, ∃ before behind,
      tokenize text = before ++ v.tree.tokens ++ behind ∧
        v.offset = byteLength (tokensText before) ∧ v.tree.Shaped behind) ∧
      ((parse text).errors.map (·.defect.fault)).Perm ((parse text).tree.faults .root) ∧
      (parse text).errors.length = ((parse text).tree.faults .root).length := by
  refine ⟨fun v hv => ?_, perm_faults_parse text, ?_⟩
  · obtain ⟨before, behind, htokens, hoffset, hwell⟩ := (wellFormed_parse text).of_mem_preorder hv
    rw [tokens_parse, List.append_nil] at htokens
    exact ⟨before, behind, htokens, by rw [hoffset, Nat.zero_add], hwell.shaped⟩
  · have h := (perm_faults_parse text).length_eq
    rwa [List.length_map] at h

end TexLint
