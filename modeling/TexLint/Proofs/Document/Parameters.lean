import TexLint.Proofs.Document.Delimiters
import TexLint.Proofs.Document.Usages
import TexLint.Proofs.Text.Pieces

/-!
# Where parameters stand

The parameters of a command have offsets in the document and texts of their own. This module says
how the two belong together, and what stands in a parameter belongs to the document.

## The model

* `SyntaxTree.PartOf`: a part of the tree of a source, at the offset at which it stands.
* `Parameter.piece` is a parameter as a piece of its document.
* `Parameter.values` are the values between the commas of a parameter that are not empty, and
  `Parameter.whole` is all that it holds, as pieces of the document.
* `Parameter.Holds`: a piece stands in the document inside a parameter, behind its opening
  delimiter.

## What is proved

* `SyntaxTree.standsIn_parameters`, `SyntaxTree.pairwise_parameters`: the parameters of a node
  stand in its text, one after the other.
* `Document.standsIn_of_parameter`: those of a command stand in the document.
* `Document.holds_values`, `Document.holds_whole`: so do their values and all that they hold.
-/

namespace TexLint

open SyntaxTree

namespace SyntaxTree

variable {offset : Nat} {trees : List SyntaxTree} {tree : SyntaxTree} {p : Parameter}

/-! ### Parameters of a node -/

/-- A tree of a row stands behind those before it. -/
theorem exists_of_mem_withOffsets {x : Nat × SyntaxTree} (h : x ∈ withOffsets offset trees) :
    ∃ before behind, trees = before ++ x.2 :: behind ∧
      x.1 = offset + byteLength (textOfAll before) := by
  induction trees generalizing offset with
  | nil => cases h
  | cons t trees ih =>
    rw [withOffsets_cons, List.mem_cons] at h
    rcases h with rfl | h
    · exact ⟨[], trees, rfl, by simp⟩
    · obtain ⟨before, behind, rfl, hx⟩ := ih h
      refine ⟨t :: before, behind, rfl, ?_⟩
      rw [hx, textOfAll_cons, byteLength_append, length_eq, Nat.add_assoc]

/-- A subtree of a node stands in its text. -/
theorem standsIn_withOffsets {x : Nat × SyntaxTree} (h : x ∈ withOffsets offset tree.children) :
    (⟨x.1, x.2.text⟩ : Piece).StandsIn offset tree.text := by
  obtain ⟨before, behind, hchildren, hoffset⟩ := exists_of_mem_withOffsets h
  cases tree with
  | leaf t => simp [children] at hchildren
  | node kind children =>
    obtain rfl : children = before ++ x.2 :: behind := hchildren
    exact ⟨textOfAll before, textOfAll behind, by simp [textOfAll_append], hoffset⟩

/-- The trees of a row follow each other. -/
theorem pairwise_withOffsets : (withOffsets offset trees).Pairwise
    fun x y => x.1 + byteLength x.2.text ≤ y.1 := by
  induction trees generalizing offset with
  | nil => exact List.Pairwise.nil
  | cons t trees ih =>
    rw [withOffsets_cons]
    refine List.pairwise_cons.mpr ⟨fun y hy => ?_, ih⟩
    obtain ⟨before, behind, -, hy⟩ := exists_of_mem_withOffsets hy
    show offset + byteLength t.text ≤ y.1
    rw [hy, length_eq]
    omega

/-- A parameter keeps the offset and the text of its node. -/
theorem place_of_toParameter? (h : tree.toParameter? offset = some p) :
    p.offset = offset ∧ p.text = tree.text := by
  cases tree with
  | leaf t => cases h
  | node kind children =>
    cases kind with
    | required | optional => cases h; exact ⟨rfl, (text_node _ _).symm⟩
    | root | group | command | environment | opening | closing | error => cases h

end SyntaxTree

/-! ### Parts of a source -/

/-- A tree is a part of the tree of a source and stands at an offset of the source. -/
structure SyntaxTree.PartOf (text : Text) (offset : Nat) (tree : SyntaxTree) : Prop where
  /-- It is a part of the tree. -/
  subtree : Subtree tree (parse text).tree
  /-- It stands at the offset. -/
  standsIn : (⟨offset, tree.text⟩ : Piece).StandsIn 0 text

namespace SyntaxTree.PartOf

variable {text : Text} {offset : Nat} {tree : SyntaxTree}

theorem of_mem_preorder {v : Visit} (hv : v ∈ (parse text).tree.preorder 0 0) :
    PartOf text v.offset v.tree := by
  refine ⟨subtree_of_mem_preorder hv, ?_⟩
  obtain ⟨before, behind, htext, hoffset⟩ := exists_text_of_mem_preorder hv
  rw [text_parse] at htext
  exact ⟨before, behind, htext, hoffset⟩

theorem child (h : PartOf text offset tree) {x : Nat × SyntaxTree}
    (hx : x ∈ withOffsets offset tree.children) : PartOf text x.1 x.2 := by
  obtain ⟨before, behind, hchildren, -⟩ := exists_of_mem_withOffsets hx
  refine ⟨(subtree_of_mem_children (by simp [hchildren])).trans h.subtree, ?_⟩
  exact (standsIn_withOffsets hx).trans (w := ⟨offset, tree.text⟩) h.standsIn

theorem slice?_span (h : PartOf text offset tree) :
    slice? text (.ofLength offset tree.length) = some tree.text := by
  rw [length_eq]
  exact h.standsIn.slice?

theorem stop_le (h : PartOf text offset tree) : offset + tree.length ≤ byteLength text := by
  rw [length_eq, ← Nat.zero_add (byteLength text)]
  exact h.standsIn.le.2

/-- A brace group is written with its brace in front. -/
theorem exists_text_of_required (h : PartOf text offset tree)
    (hrequired : tree.isNode .required = true) : ∃ inner, tree.text = '{' :: inner := by
  obtain ⟨children, rfl⟩ := exists_of_isNode hrequired
  obtain ⟨hlexed, behind, hwell⟩ := wellFormed_of_subtree h.subtree
  rw [tokens_node] at hlexed
  obtain ⟨inner, htext, -⟩ := text_of_required hwell.1 hlexed
  exact ⟨inner, by rw [text_node, htext]⟩

end SyntaxTree.PartOf

namespace Parameter

/-- A parameter as a piece of its document. -/
def piece (p : Parameter) : Piece := ⟨p.offset, p.text⟩

/-- All that a parameter holds, as a piece of its document. -/
def whole (p : Parameter) : Piece := ⟨p.offset + 1, p.interior⟩

/-- The values between the commas of a parameter that are not empty, as pieces of its document. -/
def values (p : Parameter) : List Piece :=
  ((split .parameter p.interior).filter (!·.text.isEmpty)).map (·.shift (p.offset + 1))

/-- A piece of a text stands inside a parameter, behind its opening delimiter. -/
structure Holds (text : Text) (p : Parameter) (v : Piece) : Prop where
  /-- It stands in the text. -/
  standsIn : v.StandsIn 0 text
  /-- It begins behind the delimiter. -/
  start : p.offset + 1 ≤ v.offset
  /-- It ends in the parameter. -/
  stop : v.span.stop ≤ p.span.stop

end Parameter

namespace SyntaxTree

variable {offset : Nat} {tree : SyntaxTree} {p : Parameter}

/-- A parameter of a node stands in its text. -/
theorem standsIn_parameters (h : p ∈ tree.parameters offset) :
    p.piece.StandsIn offset tree.text := by
  obtain ⟨⟨start, c⟩, hmem, hp⟩ := List.mem_filterMap.mp h
  obtain ⟨hoffset, htext⟩ := place_of_toParameter? hp
  rw [Parameter.piece, hoffset, htext]
  exact standsIn_withOffsets hmem

/-- The parameters of a node follow each other. -/
theorem pairwise_parameters (offset : Nat) (tree : SyntaxTree) :
    (tree.parameters offset).Pairwise fun p q => p.piece.EndsBefore q.piece := by
  refine List.Pairwise.filterMap _ (fun x y hxy p hp q hq => ?_) pairwise_withOffsets
  obtain ⟨hpoffset, hptext⟩ := place_of_toParameter? hp
  obtain ⟨hqoffset, -⟩ := place_of_toParameter? hq
  show p.offset + byteLength p.text ≤ q.offset
  rw [hpoffset, hptext, hqoffset]
  exact hxy

end SyntaxTree

/-! ### Parameters of a command -/

namespace Document

variable {path : String} {text : Text} {u : CommandUsage} {p : Parameter}

/-- A command is a node of the tree of its document. -/
theorem exists_visit_of_mem_commands (hu : u ∈ (read path text).commands) :
    ∃ v ∈ (parse text).tree.preorder 0 0, u.span = v.span ∧
      u.parameters = v.tree.parameters v.offset := by
  obtain ⟨j, hj⟩ := List.mem_iff_getElem?.mp hu
  obtain ⟨v, hv, t, rest, -, -, rfl⟩ := exists_visit_of_command hj
  exact ⟨v, hv, rfl, rfl⟩

/-- A parameter of a command stands in the document, within the range of the command. -/
theorem standsIn_of_parameter (hu : u ∈ (read path text).commands) (hp : p ∈ u.parameters) :
    p.piece.StandsIn 0 text ∧ u.span.start ≤ p.offset ∧ p.span.stop ≤ u.span.stop := by
  obtain ⟨v, hv, hspan, hparameters⟩ := exists_visit_of_mem_commands hu
  rw [hparameters] at hp
  have hplace := standsIn_parameters hp
  have hle := hplace.le
  refine ⟨hplace.trans (w := ⟨v.offset, v.tree.text⟩) (PartOf.of_mem_preorder hv).standsIn, ?_⟩
  rw [hspan, Visit.span, length_eq]
  exact hle

theorem pairwise_of_command (hu : u ∈ (read path text).commands) :
    u.parameters.Pairwise fun p q => p.piece.EndsBefore q.piece := by
  obtain ⟨v, -, -, hparameters⟩ := exists_visit_of_mem_commands hu
  rw [hparameters]
  exact pairwise_parameters v.offset v.tree

/-- A required parameter begins with its brace. -/
theorem exists_text_of_required (hu : u ∈ (read path text).commands)
    (hp : p ∈ u.requiredParameters) : ∃ rest, p.text = '{' :: rest := by
  obtain ⟨hp, hrequired⟩ := List.mem_filter.mp hp
  obtain ⟨v, hv, -, hparameters⟩ := exists_visit_of_mem_commands hu
  rw [hparameters] at hp
  obtain ⟨⟨start, c⟩, hmem, hparameter⟩ := List.mem_filterMap.mp hp
  have hnode : c.isNode .required = true := by
    rw [← any_isRequired_toParameter? start c]
    simpa [hparameter] using hrequired
  obtain ⟨inner, htext⟩ :=
    ((PartOf.of_mem_preorder hv).child hmem).exists_text_of_required hnode
  exact ⟨inner, (place_of_toParameter? hparameter).2.trans htext⟩

/-- All that a required parameter holds stands in the document. -/
theorem holds_whole (hu : u ∈ (read path text).commands) (hp : p ∈ u.requiredParameters) :
    p.Holds text p.whole := by
  obtain ⟨rest, hrest⟩ := exists_text_of_required hu hp
  have hplace := (standsIn_of_parameter hu (List.mem_of_mem_filter hp)).1
  have hinner : (⟨1, p.interior⟩ : Piece).StandsIn 0 p.text := by
    rw [Parameter.interior, hrest]
    exact standsIn_stripGroup '{' rest
  have hshift : p.whole.StandsIn p.offset p.text := by
    have h := hinner.shift p.offset
    rwa [Nat.zero_add, Piece.shift, Nat.add_comm] at h
  exact ⟨hshift.trans (w := p.piece) hplace, Nat.le_refl _, hshift.le.2⟩

/-- The values of a required parameter stand in the document. -/
theorem holds_values (hu : u ∈ (read path text).commands) (hp : p ∈ u.requiredParameters) :
    ∀ v ∈ p.values, p.Holds text v := by
  intro v hv
  obtain ⟨piece, hpiece, rfl⟩ := List.mem_map.mp hv
  have hwhole := holds_whole hu hp
  have hinner : piece.StandsIn 0 p.interior :=
    standsIn_split _ _ piece (List.mem_of_mem_filter hpiece)
  have hshift := hinner.shift (p.offset + 1)
  rw [Nat.zero_add] at hshift
  refine ⟨hshift.trans (w := p.whole) hwhole.standsIn, hshift.le.1, ?_⟩
  exact Nat.le_trans hshift.le.2 hwhole.stop

end Document

/-- The values of a parameter are not empty. -/
theorem Parameter.length_pos_of_mem_values {p : Parameter} {v : Piece} (hv : v ∈ p.values) :
    v.offset < v.span.stop := by
  obtain ⟨piece, hpiece, rfl⟩ := List.mem_map.mp hv
  have hne : piece.text ≠ [] := by simpa using (List.mem_filter.mp hpiece).2
  have hpos := byteLength_pos hne
  show piece.offset + (p.offset + 1) < piece.offset + (p.offset + 1) + byteLength piece.text
  omega

/-- The values of a parameter follow each other. -/
theorem Parameter.pairwise_values (p : Parameter) : p.values.Pairwise Piece.EndsBefore := by
  refine List.pairwise_map.mpr (((pairwise_split _ _).filter _).imp fun {v w} hvw => ?_)
  have hle : v.offset + byteLength v.text ≤ w.offset := hvw
  show v.offset + (p.offset + 1) + byteLength v.text ≤ w.offset + (p.offset + 1)
  omega

end TexLint
