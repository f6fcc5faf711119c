import TexLint.Proofs.Source.Form

/-!
# How deep braces are nested

A tree opens and closes the brace groups that it holds, and no others. Only a closing brace that
closes nothing breaks this, and a group that the source leaves open.

## The model

* `depthBehind` counts the open groups behind a token sequence; a sequence that closes more of them
  than there are has no such depth.
* `Opens n tokens`: the sequence leaves `n` groups open and closes none that is open before it.

## What is proved

* `Opens.append`, `Opens.braces`: how these numbers add up.
* `Form.noBrace_or_braced`: among the children of a node, braces stand around a group only.
* `SyntaxTree.WellFormed.opens`: a tree before other tokens closes all groups that it opens.
-/

namespace TexLint

open SyntaxTree

/-! ### Tokens -/

/-- How many brace groups are open behind a token, given how many are open before it. -/
def Token.depthBehind? (t : Token) (depth : Nat) : Option Nat :=
  match t.kind with
  | .lbrace => some (depth + 1)
  | .rbrace => if depth = 0 then none else some (depth - 1)
  | _ => some depth

/-- How many brace groups are open behind a token sequence. -/
def depthBehind (depth : Nat) (tokens : List Token) : Option Nat :=
  tokens.foldlM (fun depth t => t.depthBehind? depth) depth

@[simp] theorem depthBehind_nil (depth : Nat) : depthBehind depth [] = some depth := rfl

@[simp] theorem depthBehind_cons (depth : Nat) (t : Token) (tokens : List Token) :
    depthBehind depth (t :: tokens) = (t.depthBehind? depth).bind (depthBehind · tokens) :=
  List.foldlM_cons

theorem depthBehind_append (depth : Nat) (a b : List Token) :
    depthBehind depth (a ++ b) = (depthBehind depth a).bind (depthBehind · b) :=
  List.foldlM_append

/-- Whether a token is a brace. -/
def Token.IsBrace (t : Token) : Prop := t.kind = .lbrace ∨ t.kind = .rbrace

theorem Token.depthBehind?_of_not_isBrace {t : Token} (h : ¬ t.IsBrace) (depth : Nat) :
    t.depthBehind? depth = some depth := by
  simp only [IsBrace, not_or] at h
  unfold depthBehind?
  split
  · next hl => exact absurd hl h.1
  · next hr => exact absurd hr h.2
  · rfl

/-- A token sequence leaves `n` brace groups open and closes none that is open before it. -/
def Opens (n : Nat) (tokens : List Token) : Prop :=
  ∀ depth, depthBehind depth tokens = some (depth + n)

namespace Opens

variable {a b tokens : List Token} {l r : Token} {m n : Nat}

theorem nil : Opens 0 [] := fun _ => rfl

theorem append (ha : Opens m a) (hb : Opens n b) : Opens (m + n) (a ++ b) := fun depth => by
  rw [depthBehind_append, ha depth, Option.bind_some, hb, Nat.add_assoc]

theorem singleton (h : ¬ l.IsBrace) : Opens 0 [l] := fun depth => by
  simp [l.depthBehind?_of_not_isBrace h]

theorem lbrace (h : l.kind = .lbrace) : Opens 1 [l] := fun depth => by
  simp [Token.depthBehind?, h]

/-- A brace group leaves none open. -/
theorem braces (hl : l.kind = .lbrace) (h : Opens 0 tokens) (hr : r.kind = .rbrace) :
    Opens 0 (l :: tokens ++ [r]) := fun depth => by
  have hopen : depthBehind depth (l :: tokens) = some (depth + 1) := (lbrace hl).append h depth
  rw [depthBehind_append, hopen]
  simp [Token.depthBehind?, hr]

end Opens

/-! ### Trees -/

namespace SyntaxTree

/-- A tree is not a brace. -/
def NoBrace : SyntaxTree → Prop
  | leaf t => ¬ t.IsBrace
  | node _ _ => True

theorem NoBrace.isToken_rbrace {tree : SyntaxTree} (h : tree.NoBrace) :
    tree.isToken .rbrace = false := by
  cases tree with
  | leaf t => exact beq_eq_false_iff_ne.mpr (not_or.mp h).2
  | node kind children => rfl

theorem MayStandIn.noBrace {kind : NodeKind} {tree : SyntaxTree} (h : tree.MayStandIn kind) :
    tree.NoBrace := by
  cases tree with
  | leaf t => exact not_or.mpr ⟨h.1.2.1, h.1.2.2⟩
  | node kind children => trivial

theorem noBrace_of_isNode {kind : NodeKind} {tree : SyntaxTree} (h : tree.isNode kind = true) :
    tree.NoBrace := by
  obtain ⟨children, rfl⟩ := exists_of_isNode h
  trivial

theorem IsParameter.noBrace {takesOptional : Bool} {tree : SyntaxTree}
    (h : tree.IsParameter takesOptional) : tree.NoBrace :=
  h.elim noBrace_of_isNode fun h => noBrace_of_isNode h.2

theorem noBrace_leaf {t : Token} {kind : TokenKind} (h : t.kind = kind)
    (hl : kind ≠ .lbrace := by decide) (hr : kind ≠ .rbrace := by decide) : (leaf t).NoBrace :=
  not_or.mpr ⟨h ▸ hl, h ▸ hr⟩

end SyntaxTree

/-- The children of a node stand in braces, of which the source may leave out the closing one. -/
def Braced (children : List SyntaxTree) (behind : List Token) : Prop :=
  ∃ l content ending, children = .leaf l :: (content ++ ending) ∧ l.kind = .lbrace ∧
    (∀ c ∈ content, c.NoBrace) ∧
      ((∃ r, ending = [.leaf r] ∧ r.kind = .rbrace) ∨ behind = [] ∧ ending = [])

namespace Form

variable {kind : NodeKind} {children : List SyntaxTree} {behind : List Token}

theorem braced (h : Form kind children behind) (hkind : kind = .group ∨ kind = .required) :
    Braced children behind := by
  cases h with
  | braces _ hl hcontent hr =>
    exact ⟨_, _, _, rfl, hl, fun c hc => (hcontent c hc).noBrace, .inl ⟨_, rfl, hr⟩⟩
  | openBraces _ hl hcontent =>
    exact ⟨_, _, [], by simp, hl, fun c hc => (hcontent c hc).noBrace, .inr ⟨rfl, rfl⟩⟩
  | root | brackets | openBrackets | command | opening | closing | environment | openEnvironment
    | error => simp at hkind

/-- Braces stand around a group only. -/
theorem noBrace_or_braced (h : Form kind children behind) (hkind : kind ≠ .error) :
    (∀ c ∈ children, c.NoBrace) ∨ Braced children behind := by
  by_cases hgroup : kind = .group ∨ kind = .required
  · exact .inr (h.braced hgroup)
  left
  cases h with
  | root hcontent => exact fun c hc => (hcontent c hc).noBrace
  | braces hkind | openBraces hkind => exact absurd hkind hgroup
  | brackets hl hcontent hr =>
    have hinner := List.forall_mem_append.mpr
      ⟨fun c hc => (hcontent c hc).noBrace, List.forall_mem_singleton.mpr (noBrace_leaf hr)⟩
    exact List.forall_mem_cons.mpr ⟨noBrace_leaf hl, hinner⟩
  | openBrackets hl hcontent =>
    exact List.forall_mem_cons.mpr ⟨noBrace_leaf hl, fun c hc => (hcontent c hc).noBrace⟩
  | command ht hparameters =>
    exact List.forall_mem_cons.mpr
      ⟨noBrace_leaf ht.1, fun c hc => (hparameters c hc).noBrace⟩
  | opening ht hparameters =>
    exact List.forall_mem_cons.mpr
      ⟨noBrace_leaf (Token.kind_of_isBegin ht), fun c hc => (hparameters c hc).noBrace⟩
  | closing ht hparameters =>
    exact List.forall_mem_cons.mpr
      ⟨noBrace_leaf (Token.kind_of_isEnd ht), fun c hc => (hparameters c hc).noBrace⟩
  | environment hb hcontent he =>
    have hinner := List.forall_mem_append.mpr
      ⟨fun c hc => (hcontent c hc).noBrace, List.forall_mem_singleton.mpr (noBrace_of_isNode he)⟩
    exact List.forall_mem_cons.mpr ⟨noBrace_of_isNode hb, hinner⟩
  | openEnvironment hb hcontent =>
    exact List.forall_mem_cons.mpr
      ⟨noBrace_of_isNode hb, fun c hc => (hcontent c hc).noBrace⟩
  | error => exact absurd rfl hkind

end Form

namespace SyntaxTree

/-- A tree holds no closing brace that closes nothing. -/
def NoStrayBrace (tree : SyntaxTree) : Prop := Everywhere (fun kind _ => kind ≠ .error) tree

theorem NoStrayBrace.of_mem {kind : NodeKind} {children : List SyntaxTree} {c : SyntaxTree}
    (h : (node kind children).NoStrayBrace) (hc : c ∈ children) : c.NoStrayBrace :=
  Everywhere.of_subtree h (.child hc .self)

theorem noStrayBrace_iff {tree : SyntaxTree} :
    tree.NoStrayBrace ↔ ∀ v ∈ tree.preorder 0 0, v.tree.isNode .error = false := by
  constructor
  · intro h v hv
    have hpart := Everywhere.of_subtree h (subtree_of_mem_preorder hv)
    generalize v.tree = part at hpart
    cases hpart with
    | leaf t => rfl
    | node hkind => exact beq_eq_false_iff_ne.mpr hkind
  · intro h
    have hsub {t : SyntaxTree} (ht : Subtree t tree) : t.isNode .error = false := by
      obtain ⟨v, hv, rfl⟩ := ht.exists_mem_preorder 0 0
      exact h v hv
    clear h
    induction tree using SyntaxTree.induct with
    | leaf t => exact .leaf t
    | node kind children ih =>
      refine .node (beq_eq_false_iff_ne.mp (hsub .self)) fun c hc => ?_
      exact ih c hc fun ht => hsub (.child hc ht)

instance : DecidablePred NoStrayBrace := fun _ => decidable_of_iff _ noStrayBrace_iff.symm

/-- Trees before other tokens close all groups that they open, if each of them does. -/
theorem AllWellFormed.opens {trees : List SyntaxTree} {behind : List Token}
    (htrees : ∀ c ∈ trees, ∀ behind, c.WellFormed behind →
      ∃ n, Opens n c.tokens ∧ (behind ≠ [] → n = 0))
    (h : AllWellFormed behind trees) :
    ∃ n, Opens n (tokensOfAll trees) ∧ (behind ≠ [] → n = 0) := by
  induction trees with
  | nil => exact ⟨0, .nil, fun _ => rfl⟩
  | cons tree trees ih =>
    obtain ⟨m, hm, hzero⟩ := htrees tree List.mem_cons_self _ h.1
    obtain ⟨n, hn, hzero'⟩ := ih (fun c hc => htrees c (List.mem_cons_of_mem _ hc)) h.2
    refine ⟨m + n, ?_, fun hbehind => ?_⟩
    · rw [tokensOfAll_cons]
      exact hm.append hn
    · rw [hzero (by simp [hbehind]), hzero' hbehind]

/-- A tree before other tokens closes all groups that it opens. -/
theorem WellFormed.opens {tree : SyntaxTree} {behind : List Token} (h : tree.WellFormed behind)
    (hbrace : tree.NoBrace) (hstray : tree.NoStrayBrace) :
    ∃ n, Opens n tree.tokens ∧ (behind ≠ [] → n = 0) := by
  induction tree using SyntaxTree.induct generalizing behind with
  | leaf t =>
    rw [tokens_leaf]
    exact ⟨0, .singleton hbrace, fun _ => rfl⟩
  | node kind children ih =>
    have hall {trees : List SyntaxTree} (hsub : trees ⊆ children)
        (hbraces : ∀ c ∈ trees, c.NoBrace) (c : SyntaxTree) (hc : c ∈ trees) (behind : List Token)
        (hwell : c.WellFormed behind) : ∃ n, Opens n c.tokens ∧ (behind ≠ [] → n = 0) :=
      ih c (hsub hc) hwell (hbraces c hc) (hstray.of_mem (hsub hc))
    obtain ⟨hform, hchildren⟩ := h
    have hkind : kind ≠ .error := by
      cases hstray with
      | node hkind => exact hkind
    rw [tokens_node]
    rcases hform.noBrace_or_braced hkind with
      hbraces | ⟨l, content, ending, rfl, hl, hbraces, hend⟩
    · exact hchildren.opens (hall (List.Subset.refl _) hbraces)
    · obtain ⟨hcontent, -⟩ := allWellFormed_append.mp hchildren.2
      obtain ⟨n, hn, hzero⟩ := hcontent.opens (hall (by simp) hbraces)
      rw [tokensOfAll_cons, tokens_leaf, tokensOfAll_append]
      rcases hend with ⟨r, rfl, hr⟩ | ⟨rfl, rfl⟩
      · -- The closing brace stands behind the content, which therefore leaves nothing open.
        obtain rfl := hzero (by simp)
        refine ⟨0, ?_, fun _ => rfl⟩
        simpa using Opens.braces hl hn hr
      · refine ⟨1 + n, ?_, fun hbehind => absurd rfl hbehind⟩
        simpa using (Opens.lbrace hl).append hn

end SyntaxTree

end TexLint
