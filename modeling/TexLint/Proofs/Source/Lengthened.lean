import TexLint.Proofs.Document.Usages
import TexLint.Proofs.Source.Exchange
import Mathlib.Data.List.Forall2

/-!
# A token that is one byte longer

When a token of a tree is exchanged for a longer one, what stands before it stays where it is, what
stands behind it moves by one byte, and what it stands in grows by this byte.

## The model

* `Kept place o o'`: an offset that does not lie inside the place of the token, and where it is
  when the token is longer.
* `Moved t t' start o tree o' tree'`: a part of the tree at its offset, and what has become of it
  when the token `t` at `start` is exchanged for `t'`.

## What is proved

* `forall₂_withOffsets`, `forall₂_preorderOfAll`: the parts of the trees correspond to each other.
* `Moved.parameters`: so do the parameters of nodes.
-/

namespace TexLint

/-! ### Offsets -/

/-- An offset outside of a place, and where it is when the place is one byte longer. -/
def Kept (place : Span) (o o' : Nat) : Prop :=
  (o ≤ place.start ∧ o' = o) ∨ (place.stop ≤ o ∧ o' = o + 1)

/-- Both ends of a range, when a place in it or outside of it is one byte longer. -/
structure KeptSpan (place s s' : Span) : Prop where
  /-- The start of the range. -/
  start : Kept place s.start s'.start
  /-- The end of the range. -/
  stop : Kept place s.stop s'.stop

section Kept

variable {place : Span} (hplace : place.start < place.stop) {o o' x x' : Nat}
include hplace

theorem Kept.le_iff (ho : Kept place o o') (hx : Kept place x x') : o' ≤ x' ↔ o ≤ x := by
  unfold Kept at ho hx
  omega

theorem Kept.eq_iff (ho : Kept place o o') (hx : Kept place x x') : o' = x' ↔ o = x := by
  unfold Kept at ho hx
  omega

theorem KeptSpan.contains_eq {s s' r r' : Span} (hs : KeptSpan place s s')
    (hr : KeptSpan place r r') : s'.contains r' = s.contains r := by
  rw [Bool.eq_iff_iff, Span.contains_iff, Span.contains_iff, hs.start.le_iff hplace hr.start,
    hr.stop.le_iff hplace hs.stop]

end Kept

namespace SyntaxTree

/-! ### Parts of a tree -/

/-- A tree at an offset, and what has become of it when the token `t` at `start` is exchanged for
`t'`. -/
inductive Moved (t t' : Token) (start : Nat) : Nat → SyntaxTree → Nat → SyntaxTree → Prop where
  /-- What stands before the token. -/
  | before {o : Nat} {tree : SyntaxTree} : o + tree.length ≤ start →
    Moved t t' start o tree o tree
  /-- What stands behind the token. -/
  | behind {o : Nat} {tree : SyntaxTree} : start + byteLength t.text ≤ o →
    Moved t t' start o tree (o + 1) tree
  /-- The token itself. -/
  | token : Moved t t' start start (.leaf t) start (.leaf t')
  /-- A node in which the token stands. -/
  | node {o n : Nat} (kind : NodeKind) {row row' : List SyntaxTree} :
    Exchanged [.leaf t] [.leaf t'] n row row' → o + n = start →
    Moved t t' start o (.node kind row) o (.node kind row')

/-- A visited part, and what has become of it. -/
def Visit.Moved (t t' : Token) (start : Nat) (v v' : Visit) : Prop :=
  SyntaxTree.Moved t t' start v.offset v.tree v'.offset v'.tree

/-- A part with its offset, and what has become of it. -/
def MovedPart (t t' : Token) (start : Nat) (p p' : Nat × SyntaxTree) : Prop :=
  SyntaxTree.Moved t t' start p.1 p.2 p'.1 p'.2

section Correspondence

variable {t t' : Token} {row row' : List SyntaxTree} {n start : Nat}

theorem length_node (kind : NodeKind) (row : List SyntaxTree) :
    (node kind row).length = byteLength (textOfAll row) := by
  rw [length_eq, text_node]

/-- The row has the token in it and grows by one byte. -/
theorem Exchanged.length (h : Exchanged [.leaf t] [.leaf t'] n row row')
    (hlength : byteLength t'.text = byteLength t.text + 1) :
    n + byteLength t.text ≤ byteLength (textOfAll row) ∧
      byteLength (textOfAll row') = byteLength (textOfAll row) + 1 := by
  obtain ⟨before, behind, hrow, hrow', hn⟩ := h.tokens
  rw [textOfAll, textOfAll, hrow, hrow']
  simp only [tokensOfAll_cons, tokens_leaf, tokensOfAll_nil, List.append_nil, tokensText_append,
    byteLength_append, hn]
  simp only [tokensText, List.flatMap_cons, List.flatMap_nil, List.append_nil]
  omega

/-- A part that stands further behind. -/
def Visit.shift (v : Visit) (k : Nat) : Visit := ⟨v.depth, v.offset + k, v.tree⟩

theorem preorderOfAll_add_of {k : Nat} {row : List SyntaxTree}
    (h : ∀ tree ∈ row, ∀ depth o,
      tree.preorder depth (o + k) = (tree.preorder depth o).map (·.shift k)) (depth o : Nat) :
    preorderOfAll depth (o + k) row = (preorderOfAll depth o row).map (·.shift k) := by
  induction row generalizing o with
  | nil => simp
  | cons tree row ih =>
    rw [preorderOfAll_cons, preorderOfAll_cons, List.map_append, h tree List.mem_cons_self,
      Nat.add_right_comm, ih fun c hc => h c (List.mem_cons_of_mem _ hc)]

theorem preorder_add (tree : SyntaxTree) (k depth o : Nat) :
    tree.preorder depth (o + k) = (tree.preorder depth o).map (·.shift k) := by
  induction tree using induct generalizing depth o with
  | leaf token => simp [Visit.shift]
  | node kind children ih =>
    rw [preorder_node, preorder_node, List.map_cons, preorderOfAll_add_of ih]
    rfl

theorem withOffsets_add (row : List SyntaxTree) (o k : Nat) :
    withOffsets (o + k) row = (withOffsets o row).map fun p => (p.1 + k, p.2) := by
  induction row generalizing o with
  | nil => rfl
  | cons tree row ih =>
    rw [withOffsets_cons, withOffsets_cons, Nat.add_right_comm, ih, List.map_cons]

theorem le_of_mem_withOffsets {o : Nat} {p : Nat × SyntaxTree} (h : p ∈ withOffsets o row) :
    o ≤ p.1 := by
  induction row generalizing o with
  | nil => cases h
  | cons tree row ih =>
    rw [withOffsets_cons] at h
    rcases List.mem_cons.mp h with rfl | h
    · exact Nat.le_refl o
    · exact Nat.le_trans (Nat.le_add_right _ _) (ih h)

theorem forall₂_withOffsets_behind {o : Nat} (ho : start + byteLength t.text ≤ o) :
    List.Forall₂ (MovedPart t t' start) (withOffsets o row) (withOffsets (o + 1) row) := by
  rw [withOffsets_add, List.forall₂_map_right_iff, List.forall₂_same]
  intro p hp
  exact .behind (Nat.le_trans ho (le_of_mem_withOffsets hp))

/-- The parts of a node correspond to each other. -/
theorem forall₂_withOffsets (h : Exchanged [.leaf t] [.leaf t'] n row row')
    (hlength : byteLength t'.text = byteLength t.text + 1) {o : Nat} (ho : o + n = start) :
    List.Forall₂ (MovedPart t t' start) (withOffsets o row) (withOffsets o row') := by
  induction h generalizing o with
  | here rest =>
    obtain rfl : o = start := ho
    rw [List.singleton_append, List.singleton_append, withOffsets_cons, withOffsets_cons,
      length_eq, length_eq, text_leaf, text_leaf, hlength]
    exact .cons .token (forall₂_withOffsets_behind (Nat.le_refl _))
  | behind tree _ ih =>
    rw [withOffsets_cons, withOffsets_cons]
    exact .cons (.before (show o + tree.length ≤ start by omega)) (ih (by omega))
  | within kind rest hrow _ =>
    obtain ⟨hle, hgrown⟩ := hrow.length hlength
    rw [withOffsets_cons, withOffsets_cons, length_node, length_node, hgrown, ← Nat.add_assoc]
    exact .cons (.node kind hrow ho) (forall₂_withOffsets_behind (by omega))

theorem forall₂_preorderOfAll_behind (depth : Nat) {o : Nat}
    (ho : start + byteLength t.text ≤ o) :
    List.Forall₂ (Visit.Moved t t' start) (preorderOfAll depth o row)
      (preorderOfAll depth (o + 1) row) := by
  rw [preorderOfAll_add_of (fun tree _ => preorder_add tree 1), List.forall₂_map_right_iff,
    List.forall₂_same]
  intro v hv
  exact .behind (Nat.le_trans ho (le_offset_of_mem_preorderOfAll hv))

/-- All parts of the trees correspond to each other. -/
theorem forall₂_preorderOfAll (h : Exchanged [.leaf t] [.leaf t'] n row row')
    (hlength : byteLength t'.text = byteLength t.text + 1) (depth : Nat) {o : Nat}
    (ho : o + n = start) :
    List.Forall₂ (Visit.Moved t t' start) (preorderOfAll depth o row)
      (preorderOfAll depth o row') := by
  induction h generalizing depth o with
  | here rest =>
    obtain rfl : o = start := ho
    rw [List.singleton_append, List.singleton_append, preorderOfAll_cons, preorderOfAll_cons,
      preorder_leaf, preorder_leaf, length_eq, length_eq, text_leaf, text_leaf, hlength]
    exact .cons .token (forall₂_preorderOfAll_behind depth (Nat.le_refl _))
  | behind tree _ ih =>
    rw [preorderOfAll_cons, preorderOfAll_cons]
    refine List.rel_append ?_ (ih depth (by omega))
    rw [List.forall₂_same]
    intro v hv
    have hstop := (le_offset_of_mem_preorder hv).2
    exact .before (by omega)
  | within kind rest hrow ih =>
    obtain ⟨hle, hgrown⟩ := hrow.length hlength
    rw [preorderOfAll_cons, preorderOfAll_cons, preorder_node, preorder_node, length_node,
      length_node, hgrown, ← Nat.add_assoc]
    exact .cons (.node kind hrow ho)
      (List.rel_append (ih (depth + 1) ho) (forall₂_preorderOfAll_behind depth (by omega)))

end Correspondence

end SyntaxTree

/-! ### Parameters -/

/-- A parameter that stands further behind. -/
def Parameter.shift (p : Parameter) (k : Nat) : Parameter := { p with offset := p.offset + k }

/-- A parameter of a node, and what has become of it when something at a place grows. -/
structure Parameter.Moved (place : Span) (p p' : Parameter) : Prop where
  /-- The kind is the same. -/
  kind : p'.kind = p.kind
  /-- The range moves. -/
  span : KeptSpan place p.span p'.span
  /-- The text is the same unless the place is part of it. -/
  text : p'.text = p.text ∨ p.span.contains place = true

section Rel

variable {α β : Type} {R : α → β → Prop}

/-- What is found first corresponds to what is found first. -/
theorem rel_find? {f : α → Bool} {g : β → Bool} (hfg : ∀ a b, R a b → f a = g b) {l : List α}
    {l' : List β} (h : List.Forall₂ R l l') : Option.Rel R (l.find? f) (l'.find? g) := by
  induction h with
  | nil => exact .none
  | @cons a b l l' hab _ ih =>
    rw [List.find?_cons, List.find?_cons, hfg a b hab]
    cases g b with
    | true => exact .some hab
    | false => exact ih

end Rel

namespace SyntaxTree

variable {t t' : Token} {start : Nat} {o o' : Nat} {tree tree' : SyntaxTree}

theorem le_of_mem_withOffsets_stop {row : List SyntaxTree} {p : Nat × SyntaxTree}
    (h : p ∈ withOffsets o row) : p.1 + p.2.length ≤ o + byteLength (textOfAll row) := by
  induction row generalizing o with
  | nil => cases h
  | cons tree row ih =>
    rw [withOffsets_cons] at h
    rw [textOfAll_cons, byteLength_append, ← length_eq]
    rcases List.mem_cons.mp h with rfl | h
    · show o + tree.length ≤ _
      omega
    · have hle := ih h
      omega

/-- The subtrees of what corresponds to each other do so. -/
theorem Moved.parts (h : Moved t t' start o tree o' tree')
    (hlength : byteLength t'.text = byteLength t.text + 1) :
    List.Forall₂ (MovedPart t t' start) (withOffsets o tree.children)
      (withOffsets o' tree'.children) := by
  cases h with
  | before hstop =>
    rw [List.forall₂_same]
    intro p hp
    cases tree with
    | leaf token => cases hp
    | node kind row =>
      rw [length_node] at hstop
      exact .before (Nat.le_trans (le_of_mem_withOffsets_stop hp) hstop)
  | behind hstart => exact forall₂_withOffsets_behind hstart
  | token => exact .nil
  | node kind hrow ho => exact forall₂_withOffsets hrow hlength ho

theorem span_of_toParameter? {p : Parameter} (h : tree.toParameter? o = some p) :
    p.span = .ofLength o tree.length := by
  unfold toParameter? at h
  split at h
  · cases h
    rw [length_node]
    rfl
  · cases h
    rw [length_node]
    rfl
  · cases h

theorem toParameter?_add (tree : SyntaxTree) (o k : Nat) :
    tree.toParameter? (o + k) = (tree.toParameter? o).map (·.shift k) := by
  unfold toParameter?
  split <;> rfl

/-- The parameters of a node move with it. -/
theorem parameters_add (tree : SyntaxTree) (o k : Nat) :
    tree.parameters (o + k) = (tree.parameters o).map (·.shift k) := by
  rw [parameters, parameters, withOffsets_add, List.filterMap_map, List.map_filterMap]
  exact List.filterMap_congr fun p _ => toParameter?_add p.2 p.1 k

/-- A part keeps its range or moves, or its range grows. -/
theorem Moved.span (h : Moved t t' start o tree o' tree')
    (hlength : byteLength t'.text = byteLength t.text + 1) :
    KeptSpan (.ofLength start (byteLength t.text)) (.ofLength o tree.length)
      (.ofLength o' tree'.length) := by
  cases h with
  | before hstop =>
    exact ⟨.inl ⟨Nat.le_trans (Nat.le_add_right _ _) hstop, rfl⟩, .inl ⟨hstop, rfl⟩⟩
  | behind hstart =>
    exact ⟨.inr ⟨hstart, rfl⟩,
      .inr ⟨Nat.le_trans hstart (Nat.le_add_right _ _), Nat.add_right_comm _ _ _⟩⟩
  | token =>
    have ht : (leaf t).length = byteLength t.text := by rw [length_eq, text_leaf]
    have ht' : (leaf t').length = byteLength t.text + 1 := by rw [length_eq, text_leaf, hlength]
    rw [ht, ht']
    exact ⟨.inl ⟨Nat.le_refl _, rfl⟩, .inr ⟨Nat.le_refl _, rfl⟩⟩
  | node kind hrow ho =>
    obtain ⟨hle, hgrown⟩ := hrow.length hlength
    rw [length_node, length_node]
    refine ⟨.inl ⟨?_, rfl⟩, .inr ⟨?_, ?_⟩⟩
    · show o ≤ start
      omega
    · show start + byteLength t.text ≤ o + byteLength (textOfAll _)
      omega
    · show o + byteLength (textOfAll _) = o + byteLength (textOfAll _) + 1
      omega

/-- What corresponds to each other is the same parameter, or none. -/
theorem Moved.toParameter? (h : Moved t t' start o tree o' tree')
    (hlength : byteLength t'.text = byteLength t.text + 1) :
    Option.Rel (Parameter.Moved (.ofLength start (byteLength t.text))) (tree.toParameter? o)
      (tree'.toParameter? o') := by
  have hspan {p p' : Parameter} (hp : tree.toParameter? o = some p)
      (hp' : tree'.toParameter? o' = some p') :
      KeptSpan (.ofLength start (byteLength t.text)) p.span p'.span := by
    rw [span_of_toParameter? hp, span_of_toParameter? hp']
    exact h.span hlength
  cases h with
  | before hstop =>
    cases hp : tree.toParameter? o with
    | none => exact .none
    | some p => exact .some ⟨rfl, hspan hp hp, .inl rfl⟩
  | behind hstart =>
    have hshift := toParameter?_add tree o 1
    cases hp : tree.toParameter? o with
    | none =>
      rw [hshift, hp]
      exact .none
    | some p =>
      rw [hp] at hshift
      rw [hshift]
      exact .some ⟨rfl, hspan hp hshift, .inl rfl⟩
  | token => exact .none
  | @node n _ kind row row' hrow ho =>
    have hcontains {p : Parameter} (hp : (SyntaxTree.node kind row).toParameter? o = some p) :
        p.span.contains (.ofLength start (byteLength t.text)) = true := by
      rw [span_of_toParameter? hp, Span.contains_iff, length_node]
      obtain ⟨hle, -⟩ := hrow.length hlength
      constructor
      · show o ≤ start
        omega
      · show start + byteLength t.text ≤ o + byteLength (textOfAll row)
        omega
    cases kind with
    | required | optional => exact .some ⟨rfl, hspan rfl rfl, .inr (hcontains rfl)⟩
    | root | group | command | environment | opening | closing | error => exact .none

/-- The parameters of what corresponds to each other do so. -/
theorem Moved.parameters (h : Moved t t' start o tree o' tree')
    (hlength : byteLength t'.text = byteLength t.text + 1) :
    List.Forall₂ (Parameter.Moved (.ofLength start (byteLength t.text))) (tree.parameters o)
      (tree'.parameters o') := by
  rw [SyntaxTree.parameters, SyntaxTree.parameters]
  exact List.rel_filterMap (fun p p' hp => Moved.toParameter? hp hlength) (h.parts hlength)

end SyntaxTree

end TexLint
