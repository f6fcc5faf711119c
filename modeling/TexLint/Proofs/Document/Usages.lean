import TexLint.Document.Basic
import TexLint.Proofs.Source.Building

/-!
# Usages and their places

The commands and environments of a document that has been read, as the checks see them: where
they stand in its text, and in which order.

## What is proved

* `pairwise_nested`: in preorder, of two trees the later one stands inside the other or behind it.
* `pairwise_offset`: of two commands the later one starts later, and so it is with environments.
* `Document.pairwise_commands`, `Document.pairwise_environments`: no two usages of a document
  start at the same place.
* `Document.exists_text_of_command`: a command stands in the text at its place.
* `Document.exists_command_of_subtree`: each command in the tree is a usage.
-/

namespace TexLint

namespace SyntaxTree

/-! ### Offsets in preorder -/

theorem le_offset_of_mem_preorder {depth offset : Nat} {tree : SyntaxTree} {v : Visit}
    (h : v ∈ tree.preorder depth offset) :
    offset ≤ v.offset ∧ v.offset + v.tree.length ≤ offset + tree.length := by
  obtain ⟨before, behind, htext, hoffset⟩ := exists_text_of_mem_preorder h
  rw [length_eq, length_eq, htext, hoffset, byteLength_append, byteLength_append]
  omega

theorem le_offset_of_mem_preorderOfAll {depth offset : Nat} {trees : List SyntaxTree}
    {v : Visit} (h : v ∈ preorderOfAll depth offset trees) : offset ≤ v.offset := by
  obtain ⟨before, tree, behind, -, hv⟩ := mem_preorderOfAll_iff.mp h
  exact Nat.le_trans (Nat.le_add_right _ _) (le_offset_of_mem_preorder hv).1

/-- Behind a token, nodes start later. -/
theorem lt_offset_of_leaf {depth offset : Nat} {t : Token} {rest : List SyntaxTree} {v : Visit}
    {kind : NodeKind} (ht : t.Begins) (hv : v ∈ preorderOfAll depth offset (.leaf t :: rest))
    (hkind : v.tree.isNode kind = true) : offset < v.offset := by
  rw [preorderOfAll_cons, preorder_leaf, List.singleton_append, List.mem_cons] at hv
  rcases hv with rfl | hv
  · cases hkind
  · have hle := le_offset_of_mem_preorderOfAll hv
    have hpos := byteLength_pos ht.text_ne_nil
    rw [length_eq, text_leaf] at hle
    omega

/-- The nodes whose places tell them apart from others of their kind. -/
def IsUsage (kind : NodeKind) : Prop := kind = .command ∨ kind = .environment

/-- What stands in a command or an environment and is one too starts later. -/
theorem lt_offset_of_started {depth offset : Nat} {kind : NodeKind} {children : List SyntaxTree}
    {v : Visit} (hkind : IsUsage kind) (h : Everywhere Started (.node kind children))
    (hv : v ∈ preorderOfAll depth offset children) (hnode : v.tree.isNode kind = true) :
    offset < v.offset := by
  cases h with
  | node hstart hchildren =>
    rcases hkind with rfl | rfl
    · obtain ⟨t, rest, rfl, -, ht⟩ := hstart
      exact lt_offset_of_leaf ht hv hnode
    · obtain ⟨parts, rest, rfl⟩ := hstart
      cases hchildren _ List.mem_cons_self with
      | node hopening _ =>
        obtain ⟨t, parts, rfl, -, ht⟩ := hopening
        rw [preorderOfAll_cons, preorder_node, List.cons_append, List.mem_cons,
          List.mem_append] at hv
        rcases hv with rfl | hv | hv
        · cases hnode
        · exact lt_offset_of_leaf ht hv hnode
        · have hle := le_offset_of_mem_preorderOfAll hv
          have hpos := byteLength_pos ht.text_ne_nil
          rw [length_eq, text_node, textOfAll_cons, text_leaf, byteLength_append] at hle
          omega

theorem length_pos_of_started {kind : NodeKind} {tree : SyntaxTree} (hkind : IsUsage kind)
    (h : Everywhere Started tree) (hnode : tree.isNode kind = true) : 0 < tree.length := by
  cases h with
  | leaf token => cases hnode
  | @node k children hstart hchildren =>
    obtain rfl : k = kind := beq_iff_eq.mp hnode
    rw [length_eq, text_node]
    rcases hkind with rfl | rfl
    · obtain ⟨t, rest, rfl, -, ht⟩ := hstart
      have hpos := byteLength_pos ht.text_ne_nil
      rw [textOfAll_cons, text_leaf, byteLength_append]
      omega
    · obtain ⟨parts, rest, rfl⟩ := hstart
      cases hchildren _ List.mem_cons_self with
      | node hopening _ =>
        obtain ⟨t, parts, rfl, -, ht⟩ := hopening
        have hpos := byteLength_pos ht.text_ne_nil
        rw [textOfAll_cons, text_node, textOfAll_cons, text_leaf, byteLength_append,
          byteLength_append]
        omega

/-- A visited tree stands inside another one. -/
def Visit.Around (v w : Visit) : Prop := ∃ depth, w ∈ preorderOfAll depth v.offset v.tree.children

/-- Of two visited trees the later one stands inside the other or behind it. -/
def Nested (v w : Visit) : Prop := v.Around w ∨ v.span.stop ≤ w.offset

theorem pairwise_nested_of_all {trees : List SyntaxTree}
    (h : ∀ tree ∈ trees, ∀ depth offset, (tree.preorder depth offset).Pairwise Nested)
    (depth offset : Nat) : (preorderOfAll depth offset trees).Pairwise Nested := by
  induction trees generalizing offset with
  | nil => simp
  | cons tree trees ih =>
    rw [preorderOfAll_cons, List.pairwise_append]
    refine ⟨h tree List.mem_cons_self _ _,
      ih (fun t ht => h t (List.mem_cons_of_mem _ ht)) _, ?_⟩
    intro v hv w hw
    have hend : v.span.stop ≤ offset + tree.length := (le_offset_of_mem_preorder hv).2
    exact .inr (Nat.le_trans hend (le_offset_of_mem_preorderOfAll hw))

/-- In preorder, a tree comes before all that it holds, and what stands behind it comes after
that. -/
theorem pairwise_nested (tree : SyntaxTree) (depth offset : Nat) :
    (tree.preorder depth offset).Pairwise Nested := by
  induction tree using induct generalizing depth offset with
  | leaf token => simp
  | node kind children ih =>
    rw [preorder_node, List.pairwise_cons]
    exact ⟨fun w hw => .inl ⟨depth + 1, hw⟩, pairwise_nested_of_all ih _ _⟩

/-- Of two visited nodes of a kind, the later one starts later. -/
def StartsBefore (kind : NodeKind) (v w : Visit) : Prop :=
  v.tree.isNode kind = true → w.tree.isNode kind = true → v.offset < w.offset

theorem Nested.startsBefore {kind : NodeKind} (hkind : IsUsage kind) {v w : Visit}
    (h : Nested v w) (hv : Everywhere Started v.tree) : StartsBefore kind v w := by
  intro hself hnode
  rcases h with ⟨depth, hw⟩ | hbehind
  · obtain ⟨_, offset, tree⟩ := v
    cases tree with
    | leaf token => cases hself
    | node k children =>
      obtain rfl : k = kind := beq_iff_eq.mp hself
      exact lt_offset_of_started hkind hv hw hnode
  · exact Nat.lt_of_lt_of_le (Nat.lt_add_of_pos_right (length_pos_of_started hkind hv hself)) hbehind

/-- In preorder, commands stand in the order of their starts, and so do environments. -/
theorem pairwise_offset {kind : NodeKind} (hkind : IsUsage kind) {tree : SyntaxTree}
    (h : Everywhere Started tree) (depth offset : Nat) :
    (tree.preorder depth offset).Pairwise (StartsBefore kind) := by
  refine (List.Pairwise.and_mem.mp (pairwise_nested tree depth offset)).imp ?_
  intro v w ⟨hv, _, hnested⟩
  exact hnested.startsBefore hkind (h.of_subtree (subtree_of_mem_preorder hv))

end SyntaxTree

open SyntaxTree

/-! ### Commands -/

/-- A visited node is a command if it starts with a control sequence. -/
theorem command?_eq_some_iff {v : Visit} {usage : Nat → CommandUsage} :
    v.command? = some usage ↔ ∃ t rest, v.tree = .node .command (.leaf t :: rest) ∧
      t.kind = .command ∧
      usage = fun index => ⟨String.ofList t.text, v.span, v.tree.parameters v.offset, index⟩ := by
  obtain ⟨depth, offset, tree⟩ := v
  constructor
  · intro h
    rw [Visit.command?] at h
    split at h
    · next hnode =>
      obtain ⟨name, hname, rfl⟩ := Option.map_eq_some_iff.mp h
      cases tree with
      | leaf t => cases hnode
      | node kind children =>
        obtain rfl : kind = .command := beq_iff_eq.mp hnode
        cases children with
        | nil => cases hname
        | cons c rest =>
          cases c with
          | node _ _ => cases hname
          | leaf t =>
            simp only [commandName?] at hname
            split at hname
            · next hkind =>
              cases hname
              exact ⟨t, rest, rfl, hkind, rfl⟩
            · cases hname
    · cases h
  · rintro ⟨t, rest, htree, hkind, rfl⟩
    obtain rfl : tree = _ := htree
    simp [Visit.command?, isNode, commandName?, hkind]

namespace Document

variable {path : String} {text : Text} {u : CommandUsage}

/-- The commands of a document are the command nodes of its tree, in preorder. -/
theorem commands_getElem? (j : Nat) : (read path text).commands[j]? =
    ((((parse text).tree.preorder 0 0).filterMap (·.command?))[j]?).map (· j) := by
  show (commandUsages (parse text).tree)[j]? = _
  rw [commandUsages, List.getElem?_mapIdx]

theorem exists_visit_of_command {j : Nat} (h : (read path text).commands[j]? = some u) :
    ∃ v ∈ (parse text).tree.preorder 0 0, ∃ t rest,
      v.tree = .node .command (.leaf t :: rest) ∧ t.kind = .command ∧
      u = ⟨String.ofList t.text, v.span, v.tree.parameters v.offset, j⟩ := by
  rw [commands_getElem?] at h
  obtain ⟨usage, hget, rfl⟩ := Option.map_eq_some_iff.mp h
  obtain ⟨v, hv, hcommand⟩ := List.mem_filterMap.mp (List.mem_of_getElem? hget)
  obtain ⟨t, rest, htree, hkind, rfl⟩ := command?_eq_some_iff.mp hcommand
  exact ⟨v, hv, t, rest, htree, hkind, rfl⟩

theorem index_of_command {j : Nat} (h : (read path text).commands[j]? = some u) :
    u.index = j := by
  obtain ⟨v, -, t, rest, -, -, rfl⟩ := exists_visit_of_command h
  rfl

/-- A command stands among the tokens of a document, with what it is made of behind it. -/
theorem exists_tokens_of_command (h : u ∈ (read path text).commands) :
    ∃ before t parameters behind, tokenize text = before ++ t :: parameters ++ behind ∧
      t.kind = .command ∧ u.name = String.ofList t.text ∧ u.span =
        .ofLength (byteLength (tokensText before)) (byteLength (tokensText (t :: parameters))) := by
  obtain ⟨j, hj⟩ := List.mem_iff_getElem?.mp h
  obtain ⟨v, hv, t, rest, htree, ht, rfl⟩ := exists_visit_of_command hj
  obtain ⟨before, behind, htokens, hoffset⟩ := exists_tokens_of_mem_preorder hv
  have hnode : v.tree.tokens = t :: tokensOfAll rest := by simp [htree]
  rw [tokens_parse, hnode] at htokens
  refine ⟨before, t, tokensOfAll rest, behind, htokens, ht, rfl, ?_⟩
  rw [Visit.span, hoffset, length_eq, SyntaxTree.text, hnode, Nat.zero_add]

/-- A command with its parameters stands in the text at its range. -/
theorem exists_text_of_span (h : u ∈ (read path text).commands) :
    ∃ before written behind, text = before ++ written ++ behind ∧
      u.span = .ofLength (byteLength before) (byteLength written) := by
  obtain ⟨j, hj⟩ := List.mem_iff_getElem?.mp h
  obtain ⟨v, hv, t, rest, -, -, rfl⟩ := exists_visit_of_command hj
  obtain ⟨before, behind, htext, hoffset⟩ := exists_text_of_mem_preorder hv
  rw [text_parse] at htext
  refine ⟨before, v.tree.text, behind, htext, ?_⟩
  rw [Visit.span, hoffset, length_eq, Nat.zero_add]

/-- A command stands in the text at its place, and its name begins with a backslash. -/
theorem exists_text_of_command {j : Nat} (h : (read path text).commands[j]? = some u) :
    ∃ before behind, text = before ++ u.name.toList ++ behind ∧
      byteLength before = u.span.start ∧ ∃ name, u.name.toList = '\\' :: name := by
  obtain ⟨v, hv, t, rest, htree, hkind, rfl⟩ := exists_visit_of_command h
  obtain ⟨before, behind, htext, hoffset⟩ := exists_text_of_mem_preorder hv
  rw [text_parse, htree, text_node, textOfAll_cons, text_leaf] at htext
  have hbegins : t.Begins := begins_of_mem_tokenize <| tokens_parse text ▸
    (subtree_of_mem_preorder hv).mem_tokens (by simp [htree])
  refine ⟨before, textOfAll rest ++ behind, ?_, ?_, ?_⟩
  · rw [htext]
    simp
  · rw [Nat.zero_add] at hoffset
    exact hoffset.symm
  · simpa using hbegins.backslash hkind

/-- The commands of a document stand in the order in which the tree is visited. -/
theorem pairwise_commands_of_visits {R : Visit → Visit → Prop}
    {S : CommandUsage → CommandUsage → Prop} (hR : ((parse text).tree.preorder 0 0).Pairwise R)
    (hS : ∀ v w f g, v.command? = some f → w.command? = some g → R v w → ∀ i j, S (f i) (g j)) :
    (read path text).commands.Pairwise S := by
  have husages : (((parse text).tree.preorder 0 0).filterMap (·.command?)).Pairwise
      fun f g => ∀ i j, S (f i) (g j) :=
    List.Pairwise.filterMap _ (fun v w hvw f hf g hg => hS v w f g hf hg hvw) hR
  show (commandUsages (parse text).tree).Pairwise _
  rw [List.pairwise_iff_getElem] at husages ⊢
  intro i j hi hj hij
  simp only [commandUsages, List.length_mapIdx, List.getElem_mapIdx] at hi hj ⊢
  exact husages i j hi hj hij i j

/-- No two commands of a document start at the same place. -/
theorem pairwise_commands :
    (read path text).commands.Pairwise (·.span.start < ·.span.start) := by
  refine pairwise_commands_of_visits
    (pairwise_offset (.inl rfl) (everywhere_started_parse text) 0 0) ?_
  intro v w f g hf hg hvw i j
  obtain ⟨t, rest, hv, -, rfl⟩ := command?_eq_some_iff.mp hf
  obtain ⟨t', rest', hw, -, rfl⟩ := command?_eq_some_iff.mp hg
  exact hvw (by rw [hv]; rfl) (by rw [hw]; rfl)

/-- A command is not empty. -/
theorem start_lt_stop (hu : u ∈ (read path text).commands) : u.span.start < u.span.stop := by
  obtain ⟨before, t, parameters, behind, htokens, -, -, hspan⟩ := exists_tokens_of_command hu
  have hmem : t ∈ tokenize text := by
    rw [htokens]
    simp
  have hpos := byteLength_pos (begins_of_mem_tokenize hmem).text_ne_nil
  rw [hspan, tokensText_cons, byteLength_append]
  show byteLength _ < byteLength _ + (byteLength t.text + _)
  omega

/-- A command in the tree of a source is a usage. -/
theorem exists_command_of_subtree {t : Token} {rest : List SyntaxTree} (ht : t.kind = .command)
    (h : Subtree (.node .command (.leaf t :: rest)) (parse text).tree) :
    ∃ u ∈ (read path text).commands, u.name = String.ofList t.text ∧
      ∃ offset, u.parameters = (SyntaxTree.node .command (.leaf t :: rest)).parameters offset := by
  obtain ⟨v, hv, htree⟩ := h.exists_mem_preorder 0 0
  have hcommand := command?_eq_some_iff.mpr ⟨t, rest, htree, ht, rfl⟩
  obtain ⟨j, hj⟩ := List.mem_iff_getElem?.mp (List.mem_filterMap.mpr ⟨v, hv, hcommand⟩)
  refine ⟨⟨String.ofList t.text, v.span, v.tree.parameters v.offset, j⟩,
    List.mem_of_getElem? (i := j) ?_, rfl, v.offset, by rw [htree]⟩
  rw [commands_getElem?, hj]
  rfl

/-! ### Environments -/

/-- An environment begins where its node does. -/
theorem opening_start_of_ofTree? {offset : Nat} {tree : SyntaxTree} {e : Environment}
    (h : Everywhere Started tree) (he : Environment.ofTree? offset tree = some e) :
    tree.isNode .environment = true ∧ e.opening.start = offset := by
  rw [Environment.ofTree?] at he
  split at he
  · next hnode =>
    refine ⟨hnode, ?_⟩
    cases h with
    | leaf token => cases hnode
    | @node kind children hstart _ =>
      obtain rfl : kind = .environment := beq_iff_eq.mp hnode
      obtain ⟨parts, rest, rfl⟩ := hstart
      obtain ⟨opening, hfind, rfl⟩ := Option.map_eq_some_iff.mp he
      simp only [SyntaxTree.children, withOffsets_cons, List.find?_cons, isNode, beq_self_eq_true,
        Option.some.injEq] at hfind
      rw [← hfind]
      rfl
  · cases he

/-- No two environments of a document begin at the same place. -/
theorem pairwise_environments :
    (read path text).environments.Pairwise (·.span.start < ·.span.start) := by
  have hall := everywhere_started_parse text
  have hstart {v : Visit} (hv : v ∈ (parse text).tree.preorder 0 0) {e : Environment}
      (he : Environment.ofTree? v.offset v.tree = some e) :=
    opening_start_of_ofTree? (hall.of_subtree (subtree_of_mem_preorder hv)) he
  have henvironments : (TexLint.environments (parse text).tree).Pairwise
      (·.opening.start < ·.opening.start) := by
    have hpairwise := List.Pairwise.and_mem.mp (pairwise_offset (.inr rfl) hall 0 0)
    refine List.Pairwise.filterMap _ (fun v w hvw e he f hf => ?_) hpairwise
    obtain ⟨hv, hw, hlt⟩ := hvw
    obtain ⟨hnode, hopening⟩ := hstart hv he
    obtain ⟨hnode', hopening'⟩ := hstart hw hf
    rw [hopening, hopening']
    exact hlt hnode hnode'
  refine List.Pairwise.filterMap _ (fun e f hlt u hu w hw => ?_) henvironments
  obtain ⟨_, -, rfl⟩ := Option.map_eq_some_iff.mp hu
  obtain ⟨_, -, rfl⟩ := Option.map_eq_some_iff.mp hw
  exact hlt

end Document

end TexLint
