import TexLint.Proofs.Document.Ranges
import TexLint.Proofs.Source.Concatenation
import TexLint.Proofs.Source.Lengthened

/-!
# One document behind another

A document without defects stays as it is when a line end and another one are put behind it, and the
other one is read as if it stood alone, whatever is wrong with it: all of it moves, and its commands
are counted on.

## The model

* `CommandUsage.shift`, `EnvironmentUsage.shift`: what is read of a source that more stands in front
  of.
* `OfInnerNodes`: a view of the parts of a source that looks at its inner nodes only.

## What is proved

* `OfInnerNodes.filterMap_append_newline`: what the nodes of two sources give is what those of each
  give.
* `SyntaxTree.Visit.command?_shift`, `SyntaxTree.Visit.namedBeginning?_shift`: what a node gives
  moves with it.
* `Document.read_append_newline`: the commands, the environments and the defects of both.
-/

namespace TexLint

open SyntaxTree

/-! ### What moves -/

/-- A command, where the given numbers of bytes and of commands stand in front of the source. -/
def CommandUsage.shift (u : CommandUsage) (k n : Nat) : CommandUsage :=
  { u with
    span := u.span.shift k
    parameters := u.parameters.map (·.shift k)
    index := u.index + n }

/-- An environment, where the given number of bytes stand in front of the source. -/
def EnvironmentUsage.shift (u : EnvironmentUsage) (k : Nat) : EnvironmentUsage :=
  { u with
    span := u.span.shift k
    nameSpan := u.nameSpan.shift k }

namespace SyntaxTree

theorem find?_withOffsets_add (kind : NodeKind) (row : List SyntaxTree) (offset k : Nat) :
    (withOffsets (offset + k) row).find? (·.2.isNode kind) =
      ((withOffsets offset row).find? (·.2.isNode kind)).map fun p => (p.1 + k, p.2) := by
  rw [withOffsets_add, List.find?_map]
  rfl

namespace Visit

/-- The command that a node is moves with it. -/
theorem command?_shift (v : Visit) (k n : Nat) :
    (v.shift k).command?.map (fun usage index => usage (index + n)) =
      v.command?.map fun usage index => (usage index).shift k n := by
  have hspan : (v.shift k).span = v.span.shift k := (Span.ofLength_shift _ _ _).symm
  have hparameters := parameters_add v.tree v.offset k
  have hoffset : (v.shift k).offset = v.offset + k := rfl
  have htree : (v.shift k).tree = v.tree := rfl
  rw [command?, command?, htree]
  split
  · rw [Option.map_map, Option.map_map, hspan, hoffset, hparameters]
    rfl
  · rfl

/-- The beginning of an environment and the group that names it move with it. -/
theorem namedBeginning?_shift (v : Visit) (k : Nat) : (v.shift k).namedBeginning? =
    v.namedBeginning?.map fun (opening, group) =>
      ((opening.1 + k, opening.2), (group.1 + k, group.2)) := by
  have hoffset : (v.shift k).offset = v.offset + k := rfl
  have htree : (v.shift k).tree = v.tree := rfl
  rw [namedBeginning?, namedBeginning?, htree, hoffset]
  split
  · rw [find?_withOffsets_add, Option.bind_map, Option.map_bind]
    refine congrArg _ (funext fun opening => ?_)
    show ((withOffsets (opening.1 + k) _).find? _).map _ = _
    rw [find?_withOffsets_add, Option.map_map, Function.comp_apply, Option.map_map]
    rfl
  · rfl

end Visit

end SyntaxTree

/-! ### Two sources -/

namespace SyntaxTree

theorem preorderOfAll_append (depth offset : Nat) (a b : List SyntaxTree) :
    preorderOfAll depth offset (a ++ b) = preorderOfAll depth offset a ++
      preorderOfAll depth (offset + byteLength (textOfAll a)) b := by
  induction a generalizing offset with
  | nil => simp
  | cons tree a ih =>
    rw [List.cons_append, preorderOfAll_cons, preorderOfAll_cons, ih, textOfAll_cons,
      byteLength_append, length_eq, Nat.add_assoc, List.append_assoc]

end SyntaxTree

/-- Tokens are written as they are. -/
theorem textOfAll_leaves (tokens : List Token) :
    textOfAll (tokens.map .leaf) = tokensText tokens := by
  induction tokens with
  | nil => simp [tokensText]
  | cons t tokens ih => rw [List.map_cons, textOfAll_cons, ih, text_leaf, tokensText_cons]

/-- A view of the parts of a source gives nothing for its tokens and for the source itself. -/
structure OfInnerNodes {α : Type} (f : Visit → Option α) : Prop where
  /-- The source gives nothing. -/
  root : ∀ v : Visit, v.tree.isNode .root = true → f v = none
  /-- A token gives nothing. -/
  leaf : ∀ (v : Visit) (t : Token), v.tree = .leaf t → f v = none

namespace OfInnerNodes

variable {α : Type} {f : Visit → Option α} {s t : Text}

theorem shift (h : OfInnerNodes f) (k : Nat) : OfInnerNodes fun v => f (v.shift k) :=
  ⟨fun v hv => h.root (v.shift k) hv, fun v t hv => h.leaf (v.shift k) t hv⟩

theorem filterMap_root (h : OfInnerNodes f) (trees : List SyntaxTree) :
    ((node .root trees).preorder 0 0).filterMap f = (preorderOfAll 1 0 trees).filterMap f := by
  rw [preorder_node, List.filterMap_cons_none (h.root _ rfl)]

theorem filterMap_leaves (h : OfInnerNodes f) (depth offset : Nat) (tokens : List Token) :
    (preorderOfAll depth offset (tokens.map .leaf)).filterMap f = [] := by
  induction tokens generalizing offset with
  | nil => rw [List.map_nil, preorderOfAll_nil, List.filterMap_nil]
  | cons t tokens ih =>
    rw [List.map_cons, preorderOfAll_cons, List.filterMap_append, ih, preorder_leaf,
      List.filterMap_cons_none (h.leaf _ t rfl), List.filterMap_nil, List.append_nil]

/-- What a document without defects gives and then another one that is put behind it is what the two
give together. -/
theorem filterMap_append_newline (h : OfInnerNodes f) (hs : (parse s).errors = [])
    (hlast : ∀ u ∈ (tokenize s).getLast?, u.text ≠ ['\\']) :
    ((parse (s ++ '\n' :: t)).tree.preorder 0 0).filterMap f =
      ((parse s).tree.preorder 0 0).filterMap f ++
        ((parse t).tree.preorder 0 0).filterMap fun v => f (v.shift (byteLength s + 1)) := by
  obtain ⟨row, left, right, rest, hsTree, htTree, hboth, -⟩ := @parse_append_newline s t hs hlast
  -- The trees of the second text stand as far behind as the first one and the line end are long.
  have hplace : byteLength (textOfAll (row ++ [.leaf (joinedBlanks left right)])) =
      byteLength (tokensText right) + (byteLength s + 1) := by
    have hlength : byteLength s = byteLength (textOfAll row) + byteLength (tokensText left) := by
      rw [← text_parse s, hsTree, text_node, textOfAll_append, textOfAll_leaves, byteLength_append]
    rw [textOfAll_append, byteLength_append, textOfAll_cons, text_leaf, textOfAll_nil,
      List.append_nil, byteLength_joinedBlanks, hlength]
    omega
  have hsGives : ((parse s).tree.preorder 0 0).filterMap f =
      (preorderOfAll 1 0 row).filterMap f := by
    rw [hsTree, h.filterMap_root, preorderOfAll_append, List.filterMap_append, h.filterMap_leaves,
      List.append_nil]
  have htGives : ((parse t).tree.preorder 0 0).filterMap (fun v => f (v.shift (byteLength s + 1))) =
      (preorderOfAll 1 (byteLength (tokensText right) + (byteLength s + 1)) rest).filterMap f := by
    have hf := h.shift (byteLength s + 1)
    rw [htTree, hf.filterMap_root, preorderOfAll_append, List.filterMap_append,
      hf.filterMap_leaves, textOfAll_leaves, Nat.zero_add, List.nil_append,
      preorderOfAll_add_of fun tree _ => preorder_add tree _, List.filterMap_map]
    rfl
  have hblanks := h.filterMap_leaves 1 (0 + byteLength (textOfAll row)) [joinedBlanks left right]
  rw [hsGives, htGives, hboth, h.filterMap_root, List.append_cons, preorderOfAll_append, hplace,
    Nat.zero_add, preorderOfAll_append, List.filterMap_append, List.filterMap_append]
  exact congrArg (· ++ _) ((congrArg (_ ++ ·) hblanks).trans (List.append_nil _))

end OfInnerNodes

theorem ofInnerNodes_command? : OfInnerNodes Visit.command? where
  root v hv := by
    obtain ⟨children, htree⟩ := exists_of_isNode hv
    rw [Visit.command?, htree]
    rfl
  leaf v t hv := by
    rw [Visit.command?, hv]
    rfl

theorem ofInnerNodes_environment? : OfInnerNodes fun v : Visit =>
    (Environment.ofTree? v.offset v.tree).bind (·.toUsage?) where
  root v hv := by
    obtain ⟨children, htree⟩ := exists_of_isNode hv
    rw [htree]
    rfl
  leaf v t hv := by
    rw [hv]
    rfl

/-- An environment that a node is moves with it. -/
theorem environment?_shift (v : Visit) (k : Nat) :
    (Environment.ofTree? (v.shift k).offset (v.shift k).tree).bind (·.toUsage?) =
      ((Environment.ofTree? v.offset v.tree).bind (·.toUsage?)).map (·.shift k) := by
  rw [toUsage?_ofTree?, toUsage?_ofTree?, Visit.namedBeginning?_shift, Option.map_map,
    Option.map_map]
  refine congrArg (fun g => Option.map g v.namedBeginning?) (funext fun p => ?_)
  simp [EnvironmentUsage.shift, Span.ofLength_shift, Nat.add_right_comm]

/-- What is counted on is counted from the start and moved. -/
theorem mapIdx_add {α : Type} {us vs : List (Nat → α)} {n : Nat} {move : α → α}
    (h : us.map (fun u i => u (i + n)) = vs.map fun v i => move (v i)) :
    (us.mapIdx fun i u => u (i + n)) = (vs.mapIdx fun i v => v i).map move := by
  refine List.ext_getElem? fun i => ?_
  have hi := congrArg (fun us : List (Nat → α) => us[i]?.map (· i)) h
  simpa [Function.comp_def] using hi

namespace Document

variable {path : String} {s t : Text}

/-- A document without defects stays as it is when a line end and another document are put behind
it: the commands, the environments and the defects are those of the first one and then those of the
other one, moved by the length of the first one and the line end, and counted on. The first one must
not end with a backslash that stands alone, which would take the line end. -/
theorem read_append_newline (hs : (read path s).errors = [])
    (hlast : ∀ u ∈ (tokenize s).getLast?, u.text ≠ ['\\']) :
    let k := byteLength s + 1
    (read path (s ++ '\n' :: t)).commands = (read path s).commands ++
      (read path t).commands.map (·.shift k (read path s).commands.length) ∧
    (read path (s ++ '\n' :: t)).environments = (read path s).environments ++
      (read path t).environments.map (·.shift k) ∧
    (read path (s ++ '\n' :: t)).errors = (read path s).errors ++
      (read path t).errors.map (·.shift k) := by
  intro k
  refine ⟨?_, ?_, ?_⟩
  · have hlength : (read path s).commands.length =
        (((parse s).tree.preorder 0 0).filterMap Visit.command?).length := List.length_mapIdx
    rw [hlength]
    show commandUsages _ = commandUsages _ ++ (commandUsages _).map _
    rw [commandUsages, ofInnerNodes_command?.filterMap_append_newline hs hlast, List.mapIdx_append]
    refine congrArg (_ ++ ·) (mapIdx_add ?_)
    rw [List.map_filterMap, List.map_filterMap]
    simp only [Visit.command?_shift]
    rfl
  · rw [environments_read, environments_read, environments_read,
      ofInnerNodes_environment?.filterMap_append_newline hs hlast, List.map_filterMap]
    simp only [environment?_shift]
    rfl
  · obtain ⟨-, -, -, -, -, -, -, herrors⟩ := @parse_append_newline s t hs hlast
    rw [hs]
    exact herrors

/-- A command and a blank, and behind a line end a blank, a brace that closes nothing and an
environment that is left open. -/
theorem read_append_newline_malformed :
    let s := "\\foo[x]\x7ba\x7d ".toList
    let t := " \x7d\\begin\x7be\x7d\\bar".toList
    let both := read "main.tex" (s ++ '\n' :: t)
    (read "main.tex" s).errors = [] ∧ (∀ u ∈ (tokenize s).getLast?, u.text ≠ ['\\']) ∧
      both.commands.map (fun u => (u.name, u.span, u.index)) =
        [("\\foo", ⟨0, 10⟩, 0), ("\\bar", ⟨23, 27⟩, 1)] ∧
      both.environments = [⟨"e", ⟨14, 23⟩, ⟨21, 22⟩⟩] ∧
      both.errors = [⟨.unmatchedBrace, ⟨13, 14⟩⟩, ⟨.unclosedEnvironment, ⟨27, 27⟩⟩] := by
  intro s t both
  have hs : (read "main.tex" s).errors = [] := by decide +kernel
  have hlast : ∀ u ∈ (tokenize s).getLast?, u.text ≠ ['\\'] := by decide +kernel
  obtain ⟨hcommands, henvironments, herrors⟩ := read_append_newline (t := t) hs hlast
  refine ⟨hs, hlast, ?_, ?_, ?_⟩
  · rw [hcommands]
    decide +kernel
  · rw [henvironments]
    decide +kernel
  · rw [herrors]
    decide +kernel

end Document

end TexLint
