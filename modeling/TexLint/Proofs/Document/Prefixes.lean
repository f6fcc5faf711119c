import TexLint.Proofs.Document.Correspondence
import TexLint.Proofs.Document.Delimiters
import TexLint.Proofs.Source.Growth

/-!
# Commands of sources that begin alike

Two sources that begin with the same tokens have the same commands there, up to those that reach to
the end of what they have in common.

## The model

* `CommandUsage.IsAt`: a usage is that of a node behind some tokens of the source.

## What is proved

* `Document.exists_isAt`, `Document.exists_command_of_stands`: the usages are those of the command
  nodes.
* `Document.exists_command_of_token`: each ordinary control sequence has its usage.
* `Document.exists_command_exchange`: a command that starts in what two sources have in common is a
  command of both, with the same parameters if it ends there in one of them.
-/

namespace TexLint

open SyntaxTree

namespace SyntaxTree

variable {tree : SyntaxTree} {before inner : List Token} {kind : NodeKind}
  {a children : List SyntaxTree}

/-- What stands in a row is visited, at the offset behind the tokens before it. -/
theorem Stands.exists_mem_preorder (h : Stands tree before a) (depth offset : Nat) :
    ∃ v ∈ preorderOfAll depth offset a, v.tree = tree ∧
      v.offset = offset + byteLength (tokensText before) := by
  induction h generalizing depth offset with
  | head rest =>
    refine ⟨⟨depth, offset, tree⟩, ?_, rfl, rfl⟩
    rw [preorderOfAll_cons, List.mem_append]
    cases tree with
    | leaf t => exact .inl (by rw [preorder_leaf]; exact List.mem_singleton_self _)
    | node kind children => exact .inl (by rw [preorder_node]; exact List.mem_cons_self)
  | into rest _ ih =>
    obtain ⟨v, hv, htree, hoffset⟩ := ih (depth + 1) offset
    refine ⟨v, ?_, htree, hoffset⟩
    rw [preorderOfAll_cons, preorder_node]
    exact List.mem_append_left _ (List.mem_cons_of_mem _ hv)
  | tail c _ ih =>
    obtain ⟨v, hv, htree, hoffset⟩ := ih depth (offset + c.length)
    refine ⟨v, ?_, htree, ?_⟩
    · rw [preorderOfAll_cons]
      exact List.mem_append_right _ hv
    · rw [hoffset, tokensText_append, byteLength_append, length_eq, Nat.add_assoc]
      rfl

/-- What stands in a part of a row stands in the row. -/
theorem Stands.within (h : Stands (node kind children) before a)
    (htree : Stands tree inner children) : Stands tree (before ++ inner) a := by
  induction h with
  | head rest => exact .into rest htree
  | into rest _ ih => exact .into rest ih
  | tail c _ ih =>
    rw [List.append_assoc]
    exact .tail c ih

/-- A command takes no parameters behind those that end before a token that begins none. -/
theorem eq_nil_of_noParameter {text : Text} {t : Token} {parameters after : List SyntaxTree}
    {behind : List Token}
    (h : Stands (.node .command (.leaf t :: parameters ++ after)) before [(parse text).tree])
    (htokens : tokenize text = before ++ tokensOfAll (.leaf t :: parameters) ++ behind)
    (hbehind : ∀ t ∈ behind.head?, t.kind ≠ .lbrace ∧ t.kind ≠ .lbracket) : after = [] := by
  obtain ⟨tree, htree, hsub⟩ := h.exists_subtree
  rw [List.mem_singleton.mp htree] at hsub
  obtain ⟨-, _, hform, hwell⟩ := wellFormed_of_subtree hsub
  obtain ⟨more, hmore⟩ := h.exists_tokens
  cases after with
  | nil => rfl
  | cons c after =>
    obtain ⟨_, _, heq, -, hparameters, -⟩ := hform.exists_of_command
    obtain ⟨-, rfl⟩ := List.cons.inj heq
    obtain ⟨l, rest, hl, hkind⟩ :=
      (hparameters c (by simp)).exists_head (allWellFormed_append.mp hwell).2.1
    have heq : behind = l :: (rest ++ tokensOfAll after ++ more) := by
      rw [tokensOfAll_cons, tokensOfAll_nil, List.append_nil, tokens_parse, htokens, tokens_node,
        tokensOfAll_append, tokensOfAll_cons c, hl] at hmore
      simpa using hmore
    obtain ⟨hbrace, hbracket⟩ := hbehind l (by rw [heq]; rfl)
    exact absurd hkind (not_or.mpr ⟨hbrace, hbracket⟩)

end SyntaxTree

/-- What is put into a nest last stands behind all that has been read. -/
theorem Nest.exists_stands_treesWith (nest : Nest) : ∃ read,
    (∀ finished, tokensOfAll (nest.treesWith finished) = read ++ tokensOfAll finished.reverse) ∧
      ∀ tree, Stands tree read (nest.treesWith [tree]) := by
  have hlast (content : List SyntaxTree) (tree : SyntaxTree) :
      Stands tree (tokensOfAll content.reverse) (content.reverse ++ [tree]) := by
    simpa using (Stands.head []).append_left content.reverse
  induction nest with
  | root content =>
    refine ⟨tokensOfAll content.reverse, fun finished => by simp [treesWith_root], fun tree => ?_⟩
    simpa [treesWith_root] using hlast content tree
  | inside construct content outer ih =>
    obtain ⟨read, htokens, hstands⟩ := ih
    refine ⟨read ++ tokensOfAll content.reverse, fun finished => ?_, fun tree => ?_⟩
    · rw [treesWith_inside, htokens]
      simp [close]
    · refine (hstands _).within ?_
      simpa using hlast content tree

/-- A usage is that of a command node that stands behind some tokens. -/
structure CommandUsage.IsAt (u : CommandUsage) (before : List Token) (t : Token)
    (parameters : List SyntaxTree) : Prop where
  /-- It has the name of the control sequence. -/
  name : u.name = String.ofList t.text
  /-- It has the range of the node. -/
  span : u.span = .ofLength (byteLength (tokensText before))
    (SyntaxTree.node .command (.leaf t :: parameters)).length
  /-- It has the parameters of the node. -/
  parameters : u.parameters = (SyntaxTree.node .command (.leaf t :: parameters)).parameters
    (byteLength (tokensText before))

/-- A token that does not start before some tokens of a source end stands behind them. -/
theorem exists_append_of_byteLength_le {a b c d : List Token} {t : Token} (ht : t.text ≠ [])
    (h : c ++ d = a ++ t :: b) (hle : byteLength (tokensText c) ≤ byteLength (tokensText a)) :
    ∃ m, a = c ++ m ∧ d = m ++ t :: b := by
  rcases List.append_eq_append_iff.mp h with h | ⟨m, rfl, hrest⟩
  · exact h
  · cases m with
    | nil => exact ⟨[], by simp, hrest.symm⟩
    | cons t' m =>
      obtain ⟨rfl, -⟩ := List.cons.inj hrest
      have hpos := byteLength_pos ht
      rw [tokensText_append, tokensText_cons, byteLength_append, byteLength_append] at hle
      omega

namespace Document

variable {path : String} {text text' start : Text} {u u' : CommandUsage}
  {before behind : List Token} {t : Token} {parameters : List SyntaxTree}

/-- Two commands that start at the same place are one. -/
theorem eq_of_start (hu : u ∈ (read path text).commands) (hu' : u' ∈ (read path text).commands)
    (h : u.span.start = u'.span.start) : u = u' := by
  obtain ⟨i, hi, rfl⟩ := List.mem_iff_getElem.mp hu
  obtain ⟨j, hj, rfl⟩ := List.mem_iff_getElem.mp hu'
  have hsorted := List.pairwise_iff_getElem.mp (@pairwise_commands path text)
  rcases Nat.lt_trichotomy i j with hlt | rfl | hlt
  · have := hsorted i j hi hj hlt
    omega
  · rfl
  · have := hsorted j i hj hi hlt
    omega

/-- A usage is that of a command node. -/
theorem exists_isAt (hu : u ∈ (read path text).commands) : ∃ before t parameters,
    Stands (.node .command (.leaf t :: parameters)) before [(parse text).tree] ∧
      t.kind = .command ∧ u.IsAt before t parameters := by
  obtain ⟨j, hj⟩ := List.mem_iff_getElem?.mp hu
  obtain ⟨v, hv, t, parameters, htree, ht, rfl⟩ := exists_visit_of_command hj
  obtain ⟨before, hstands, hoffset⟩ := exists_stands_of_mem_preorder hv []
  rw [Nat.zero_add] at hoffset
  rw [htree] at hstands
  refine ⟨before, t, parameters, hstands, ht, rfl, ?_, ?_⟩
  · rw [Visit.span, hoffset, htree]
  · rw [htree, hoffset]

/-- A command node has its usage. -/
theorem exists_command_of_stands (path : String) (ht : t.kind = .command)
    (h : Stands (.node .command (.leaf t :: parameters)) before [(parse text).tree]) :
    ∃ u ∈ (read path text).commands, u.IsAt before t parameters := by
  obtain ⟨v, hv, htree, hoffset⟩ := h.exists_mem_preorder 0 0
  rw [preorderOfAll_cons, preorderOfAll_nil, List.append_nil] at hv
  rw [Nat.zero_add] at hoffset
  have hcommand := command?_eq_some_iff.mpr ⟨t, parameters, htree, ht, rfl⟩
  obtain ⟨j, hj⟩ := List.mem_iff_getElem?.mp (List.mem_filterMap.mpr ⟨v, hv, hcommand⟩)
  refine ⟨⟨String.ofList t.text, v.span, v.tree.parameters v.offset, j⟩,
    List.mem_of_getElem? (i := j) ?_, rfl, ?_, ?_⟩
  · rw [commands_getElem?, hj]
    rfl
  · rw [Visit.span, hoffset, htree]
  · rw [htree, hoffset]

/-- An ordinary control sequence has its usage. -/
theorem exists_command_of_token (h : tokenize text = before ++ t :: behind) (ht : t.IsOrdinary) :
    ∃ u ∈ (read path text).commands, u.name = String.ofList t.text ∧
      u.span.start = byteLength (tokensText before) := by
  have hplaced : (⟨byteLength (tokensText before), t⟩ : PlacedToken) ∈
      starters .command (placeTokens 0 (tokenize text)) := by
    rw [h, placeTokens_append, starters_append, placeTokens, starters_cons,
      if_pos (Token.starts?_of_isOrdinary ht), Nat.zero_add]
    simp
  obtain ⟨i, hi⟩ := List.mem_iff_getElem?.mp hplaced
  have haccount := map_account_commands path text i
  rw [hi, Option.map_some] at haccount
  obtain ⟨u, hu, haccount⟩ := Option.map_eq_some_iff.mp haccount
  refine ⟨u, List.mem_of_getElem? hu, ?_, ?_⟩
  · exact congrArg Prod.fst haccount
  · exact congrArg (·.2.1) haccount

/-- A command that starts in the first part of a source is a command of that part, with the same
parameters unless it goes on to the end of the part. -/
theorem exists_command_of_prefix (h : tokenize start <+: tokenize text)
    (hu : u ∈ (read path text).commands) (hlt : u.span.start < byteLength start) :
    ∃ v ∈ (read path start).commands, v.name = u.name ∧ v.span.start = u.span.start ∧
      v.span.stop ≤ u.span.stop ∧
        (v.parameters = u.parameters ∨ v.span.stop = byteLength start) := by
  obtain ⟨before, t, parameters, hstands, ht, hat⟩ := exists_isAt hu
  have hplace : u.span.start = byteLength (tokensText before) := by rw [hat.span]; rfl
  have hlength : before.length < (tokensOfAll [(parse start).tree]).length := by
    obtain ⟨behind, htokens⟩ := hstands.exists_tokens
    have hbefore : before <+: tokenize text := by
      rw [← tokens_parse]
      exact ⟨_, by simpa using htokens.symm⟩
    rw [tokensOfAll_cons, tokensOfAll_nil, List.append_nil, tokens_parse]
    by_contra hle
    obtain ⟨more, rfl⟩ := List.prefix_of_prefix_length_le h hbefore (Nat.le_of_not_lt hle)
    rw [hplace, tokensText_append, tokensText_tokenize, byteLength_append] at hlt
    omega
  obtain ⟨children, hgrows, hstands₀, hend⟩ := (grows_parse h).exists_stands_of_lt hstands hlength
  obtain ⟨tree, htree, hsub⟩ := hstands₀.exists_subtree
  rw [List.mem_singleton.mp htree] at hsub
  have hsolid := solid_of_subtree hsub (by simp [isNode])
  -- What is there of the node begins with its control sequence.
  obtain ⟨parameters₀, rfl, hmore⟩ : ∃ parameters₀, children = .leaf t :: parameters₀ ∧
      Grows parameters₀ parameters := by
    cases hgrows with
    | nil =>
      cases hsolid with
      | node hne => exact absurd rfl hne
    | cons _ hgrows => exact ⟨_, rfl, hgrows⟩
  obtain ⟨v, hv, hat₀⟩ := exists_command_of_stands path ht hstands₀
  refine ⟨v, hv, hat₀.name.trans hat.name.symm, by rw [hat₀.span, hat.span]; rfl, ?_, ?_⟩
  · obtain ⟨more, hmore⟩ := hmore.exists_tokens
    have hlength : (node .command (.leaf t :: parameters)).length =
        (node .command (.leaf t :: parameters₀)).length + byteLength (tokensText more) := by
      rw [length_eq, length_eq, ← byteLength_append, SyntaxTree.text, SyntaxTree.text,
        ← tokensText_append]
      simp [hmore]
    rw [hat₀.span, hat.span, hlength]
    exact Nat.add_le_add_left (Nat.le_add_right _ _) _
  · rcases hend with heq | htokens
    · cases heq
      exact .inl (hat₀.parameters.trans hat.parameters.symm)
    · refine .inr ?_
      have htext := congrArg (fun tokens => byteLength (tokensText tokens)) htokens
      rw [tokensOfAll_cons, tokensOfAll_nil, List.append_nil, tokens_parse, tokensText_tokenize,
        tokensText_append, byteLength_append] at htext
      rw [htext, hat₀.span, length_eq, text_node]
      rfl

/-- A command of the first part of a source is a command of the source, which may go on. -/
theorem exists_command_of_beginning (h : tokenize start <+: tokenize text)
    (hu : u ∈ (read path start).commands) : ∃ v ∈ (read path text).commands,
      v.name = u.name ∧ v.span.start = u.span.start := by
  obtain ⟨before, t, parameters, hstands, ht, hat⟩ := exists_isAt hu
  obtain ⟨children, hgrows, hstands'⟩ := (grows_parse h).exists_stands hstands
  obtain ⟨parameters', rfl⟩ : ∃ parameters', children = .leaf t :: parameters' := by
    cases hgrows with
    | cons => exact ⟨_, rfl⟩
  obtain ⟨v, hv, hat'⟩ := exists_command_of_stands path ht hstands'
  exact ⟨v, hv, hat'.name.trans hat.name.symm, by rw [hat'.span, hat.span]; rfl⟩

/-- A command that starts in what two sources have in common is a command of both, with the same
parameters if in one of them it ends before the end of what they have in common. -/
theorem exists_command_exchange (h : tokenize start <+: tokenize text)
    (h' : tokenize start <+: tokenize text') (hu' : u' ∈ (read path text').commands)
    (hlt : u'.span.start < byteLength start) :
    ∃ u ∈ (read path text).commands, u.name = u'.name ∧ u.span.start = u'.span.start ∧
      (u.span.stop < byteLength start → u'.parameters = u.parameters) := by
  obtain ⟨v', hv', hname', hstart', -, hend'⟩ := exists_command_of_prefix h' hu' hlt
  obtain ⟨u, hu, hname, hstart⟩ := exists_command_of_beginning h hv'
  refine ⟨u, hu, hname.trans hname', hstart.trans hstart', fun hstop => ?_⟩
  rw [← hstart', ← hstart] at hlt
  obtain ⟨v, hv, -, hstart₀, hle, hend⟩ := exists_command_of_prefix h hu hlt
  obtain rfl := eq_of_start hv hv' (hstart₀.trans hstart)
  rw [← hend'.resolve_right (by omega), hend.resolve_right (by omega)]

end Document

end TexLint
