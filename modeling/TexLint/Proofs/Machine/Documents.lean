import TexLint.Proofs.Machine.Lexer
import TexLint.Proofs.Document.Ranges

/-!
# Reading documents with sizes that fit

A machine reads a document with offsets in words: it adds up the lengths of tokens, takes the range
of each part that it keeps, and slices the interiors of groups out of their texts.

## The model

* `next?` and `parse?` build the tree and the reports, `read?` the document. They follow
  `Reading.next`, `parse` and `Document.read`.
* `interior?` takes the braces off a group, `nameOf?` reads the name of an environment.

## What is proved

* `interior?_eq`, `nameOf?_eq`: a brace is taken off where there is one.
* `read?_eq`: a text that fits is read, whatever it holds, and the document is that of the text.
-/

namespace TexLint

open SyntaxTree

namespace Machine

/-! ### The tree -/

/-- Reads one token. -/
def next? (r : Reading) (t : Token) : Option Reading := do
  let (settled, early) := r.nest.settle t
  let (nest, late) := settled.read t
  let span ← rangeAt? r.offset (byteLength t.text)
  return ⟨span.stop, nest, ((early ++ late).map (⟨·, span⟩)).reverse ++ r.errors⟩

/-- Builds the tree of a source text. -/
def parse? (text : Text) : Option Parsed := do
  let tokens ← tokens? text
  let reading ← tokens.foldlM next? .start
  let (trees, defects) := reading.nest.finishFrom []
  let span ← rangeAt? reading.offset 0
  return ⟨.node .root trees, reading.errors.reverse ++ defects.map (⟨·, span⟩)⟩

theorem foldlM_next?_eq {r : Reading} {tokens : List Token}
    (h : r.offset + byteLength (tokensText tokens) < limit) :
    tokens.foldlM next? r = some (tokens.foldl Reading.next r) := by
  induction tokens generalizing r with
  | nil => rfl
  | cons t tokens ih =>
    rw [tokensText_cons, byteLength_append] at h
    have hnext : next? r t = some (r.next t) := by
      rw [next?, rangeAt?_eq (by omega)]
      rfl
    have hoffset : (r.next t).offset = r.offset + byteLength t.text := rfl
    rw [List.foldlM_cons, hnext]
    exact ih (by omega)

theorem parse?_eq {text : Text} (h : byteLength text < limit) :
    parse? text = some (parse text) := by
  have htokens := tokensText_tokenize text
  have hstart : Reading.start.offset = 0 := rfl
  have hreading : (tokenize text).foldlM next? .start = _ :=
    foldlM_next?_eq (by rw [htokens, hstart]; omega)
  have hoffset := offset_foldl_next .start (tokenize text)
  rw [parse?, tokens?_eq]
  show ((tokenize text).foldlM next? .start).bind _ = _
  rw [hreading]
  show (rangeAt? _ 0).bind _ = _
  rw [rangeAt?_eq (by rw [hoffset, htokens, hstart]; omega)]
  rfl

/-! ### Groups -/

/-- A group without its opening brace, and without its closing one if it has one. -/
def interior? (group : Text) (closed : Bool) : Option Text := do
  let stop ← if closed then difference? (byteLength group) 1 else some (byteLength group)
  slice? group ⟨1, stop⟩

/-- The text of a group without its braces. -/
def groupInterior? (group : SyntaxTree) : Option Text :=
  let text := group.text
  interior? text (group.children.getLast?.any (·.isToken .rbrace) && 1 < byteLength text)

/-- The name that a brace group holds which stands at the given offset, and where the name
stands. -/
def nameOf? (offset : Nat) (group : Text) : Option (Option (Text × Span)) :=
  if group.head? = some '{' then do
    let name ← interior? group (group.getLast? == some '}' && 2 ≤ byteLength group)
    let start ← size? (offset + 1)
    return some (name, ← rangeAt? start (byteLength name))
  else return none

theorem interior?_eq {inner : Text} {closed : Bool}
    (h : closed = true → inner.getLast? = some '}') :
    interior? ('{' :: inner) closed = some (if closed then inner.dropLast else inner) := by
  have hbrace : ('{').utf8Size = 1 := rfl
  cases closed with
  | false =>
    have hslice := slice?_append ['{'] inner []
    rw [List.append_nil] at hslice
    simpa [interior?, Span.ofLength, hbrace] using hslice
  | true =>
    obtain ⟨init, rfl⟩ := List.getLast?_eq_some_iff.mp (h rfl)
    have hslice := slice?_append ['{'] init ['}']
    have hlength : byteLength ('{' :: (init ++ ['}'])) = 1 + byteLength init + 1 := by
      simp [hbrace, show ('}').utf8Size = 1 from rfl]
      omega
    rw [interior?, if_pos rfl, difference?_eq (by omega), hlength, if_pos rfl, List.dropLast_concat]
    simpa [Span.ofLength, hbrace] using hslice

/-- A group that has both braces has two bytes at least. -/
theorem two_le_byteLength {inner : Text} (h : inner.getLast? = some '}') :
    2 ≤ byteLength ('{' :: inner) := by
  have hne : inner ≠ [] := fun hnil => by simp [hnil] at h
  have hpos := byteLength_pos hne
  have hbrace : ('{').utf8Size = 1 := rfl
  rw [byteLength_cons]
  omega

theorem nameOf?_eq {offset : Nat} {group : SyntaxTree} {inner : Text}
    (htext : group.text = '{' :: inner) (h : offset + byteLength group.text < limit) :
    nameOf? offset group.text =
      some (some (group.groupName, .ofLength (offset + 1) (byteLength group.groupName))) := by
  have hlast : ('{' :: inner).getLast? = some '}' ↔ inner.getLast? = some '}' :=
    getLast?_cons_of_ne (by decide)
  have hclosed : ((group.text.getLast? == some '}') && 2 ≤ byteLength group.text) =
      decide (inner.getLast? = some '}') := by
    rw [htext]
    by_cases hinner : inner.getLast? = some '}'
    · rw [decide_eq_true (two_le_byteLength hinner), hlast.mpr hinner, hinner]
      rfl
    · simp [hinner, mt hlast.mp hinner]
  have hinterior : interior? group.text (decide (inner.getLast? = some '}')) =
      some group.groupName := by
    rw [htext, interior?_eq fun hd => of_decide_eq_true hd, groupName, htext]
    simp
  have hle : 1 + byteLength group.groupName ≤ 0 + byteLength group.text :=
    (standsIn_groupName htext).le.2
  have hhead : group.text.head? = some '{' := by rw [htext, List.head?_cons]
  rw [nameOf?, if_pos hhead, hclosed, hinterior, size?_eq (by omega)]
  simp only [Option.bind_eq_bind, Option.bind_some]
  rw [rangeAt?_eq (by omega)]
  rfl

/-! ### Parameters -/

/-- What a subtree is among the contents of a parameter. -/
def toContent? (tree : SyntaxTree) : Option Content :=
  if tree.isNode .group then (groupInterior? tree).map .group else some (.text tree.text)

/-- The subtrees of a parameter between its delimiters. -/
def innerOf (children : List SyntaxTree) : List SyntaxTree :=
  let inner := children.drop 1
  match inner.getLast? with
  | some last => if last.isClosingToken then inner.dropLast else inner
  | none => inner

/-- The parameter of the given kind that subtrees at an offset make up. -/
def parameterOf? (kind : ParameterKind) (offset : Nat) (children : List SyntaxTree) :
    Option Parameter := do
  let span ← rangeAt? offset (byteLength (textOfAll children))
  return ⟨kind, span.start, textOfAll children, ← (innerOf children).mapM toContent?⟩

/-- The parameter that a subtree at an offset is, if it is one. -/
def parameter? (offset : Nat) : SyntaxTree → Option (Option Parameter)
  | .node .required children => return some (← parameterOf? .required offset children)
  | .node .optional children => return some (← parameterOf? .optional offset children)
  | _ => return none

/-- The command that a visited node is, before it has its index. -/
def command? (v : Visit) : Option (Option (Nat → CommandUsage)) := do
  if !v.tree.isNode .command then return none
  match v.tree.commandName? with
  | none => return none
  | some name =>
    let span ← rangeAt? v.offset v.tree.length
    let parameters ←
      (withOffsets v.offset v.tree.children).filterMapM fun (start, child) => parameter? start child
    return some fun index => ⟨String.ofList name, span, parameters, index⟩

/-- The usage that a visited environment is, if it has a name. -/
def environment? (v : Visit) : Option (Option EnvironmentUsage) := do
  match v.namedBeginning? with
  | none => return none
  | some (opening, group) =>
    match ← nameOf? group.1 group.2.text with
    | none => return none
    | some (name, nameSpan) =>
      return some ⟨String.ofList name, ← rangeAt? opening.1 opening.2.length, nameSpan⟩

/-- Reads a source file. -/
def read? (path : String) (text : Text) : Option Document := do
  let parsed ← parse? text
  let visits := parsed.tree.preorder 0 0
  let commands ← visits.filterMapM command?
  let environments ← visits.filterMapM environment?
  return ⟨path, text, commands.mapIdx fun index usage => usage index, environments, parsed.errors⟩

section Parts

variable {text : Text} {tree : SyntaxTree} {v : Visit}

theorem groupInterior?_eq {children : List SyntaxTree}
    (h : Subtree (node .group children) (parse text).tree) :
    groupInterior? (node .group children) = some (node .group children).groupInterior := by
  obtain ⟨hlexed, behind, hwell⟩ := wellFormed_of_subtree h
  rw [tokens_node] at hlexed
  obtain ⟨inner, htext, hlast⟩ := text_of_braced hwell.1 (.inl rfl) hlexed
  have hclosed : (children.getLast?.any (·.isToken .rbrace) &&
      decide (1 < byteLength ('{' :: inner))) = children.getLast?.any (·.isToken .rbrace) := by
    cases hbrace : children.getLast?.any (·.isToken .rbrace) with
    | false => rfl
    | true => exact decide_eq_true (two_le_byteLength (hlast hbrace))
  rw [groupInterior?, text_node, htext, SyntaxTree.children, hclosed, interior?_eq hlast,
    groupInterior, text_node, htext]
  cases hget : children.getLast? with
  | none => simp [SyntaxTree.children, hget]
  | some last => simp [SyntaxTree.children, hget]

theorem toContent?_eq (h : Subtree tree (parse text).tree) :
    toContent? tree = some tree.toContent := by
  rw [toContent?, toContent]
  split
  · next hgroup =>
    obtain ⟨children, rfl⟩ := exists_of_isNode hgroup
    rw [groupInterior?_eq h]
    rfl
  · rfl

theorem mem_of_mem_innerOf {children : List SyntaxTree} {c : SyntaxTree}
    (h : c ∈ innerOf children) : c ∈ children := by
  rw [innerOf] at h
  have hdrop : c ∈ children.drop 1 := by
    split at h
    · split at h
      · exact (List.dropLast_subset _) h
      · exact h
    · exact h
  exact List.mem_of_mem_drop hdrop

theorem mapM_toContent?_eq {kind : NodeKind} {children : List SyntaxTree}
    (h : Subtree (node kind children) (parse text).tree) :
    (innerOf children).mapM toContent? = some (contentsOf children) :=
  mapM_eq fun _ hc => toContent?_eq ((Subtree.child (mem_of_mem_innerOf hc) .self).trans h)

theorem parameter?_eq {offset : Nat} (h : PartOf text offset tree)
    (hlimit : byteLength text < limit) :
    parameter? offset tree = some (tree.toParameter? offset) := by
  have hle := h.stop_le
  rw [length_eq] at hle
  cases tree with
  | leaf t => rfl
  | node kind children =>
    rw [text_node] at hle
    have hrange : rangeAt? offset (byteLength (textOfAll children)) = _ := rangeAt?_eq (by omega)
    cases kind with
    | required | optional =>
      rw [parameter?, parameterOf?, hrange, mapM_toContent?_eq h.subtree]
      rfl
    | root | group | command | environment | opening | closing | error => rfl

theorem command?_eq (hv : v ∈ (parse text).tree.preorder 0 0) (hlimit : byteLength text < limit) :
    command? v = some v.command? := by
  have hpart := PartOf.of_mem_preorder hv
  have hle := hpart.stop_le
  have hparameters : ((withOffsets v.offset v.tree.children).filterMapM
      fun (start, child) => parameter? start child) = some (v.tree.parameters v.offset) :=
    filterMapM_eq fun _ hx => parameter?_eq (hpart.child hx) hlimit
  rw [command?, Visit.command?]
  cases hnode : v.tree.isNode .command with
  | false => rfl
  | true =>
    cases hname : v.tree.commandName? with
    | none => rfl
    | some name =>
      simp only [Bool.not_true, Bool.false_eq_true, if_false, if_true]
      rw [rangeAt?_eq (by omega), hparameters]
      rfl

theorem environment?_eq (hv : v ∈ (parse text).tree.preorder 0 0)
    (hlimit : byteLength text < limit) :
    environment? v = some ((Environment.ofTree? v.offset v.tree).bind (·.toUsage?)) := by
  rw [toUsage?_ofTree?, environment?]
  cases hbeginning : v.namedBeginning? with
  | none => rfl
  | some found =>
    obtain ⟨opening, group⟩ := found
    obtain ⟨hopening, hgroup, hrequired, -⟩ := partOf_namedBeginning? hv hbeginning
    obtain ⟨inner, htext⟩ := hgroup.exists_text_of_required hrequired
    have hgroupLe := hgroup.stop_le
    have hopeningLe := hopening.stop_le
    rw [length_eq] at hgroupLe
    simp only
    rw [nameOf?_eq htext (by omega), rangeAt?_eq (by omega)]
    rfl

/-- A text that fits is read, whatever it holds. -/
theorem read?_eq (path : String) (hlimit : byteLength text < limit) :
    read? path text = some (Document.read path text) := by
  have hcommands : ((parse text).tree.preorder 0 0).filterMapM command? = _ :=
    filterMapM_eq fun _ hv => command?_eq hv hlimit
  have henvironments : ((parse text).tree.preorder 0 0).filterMapM environment? = _ :=
    filterMapM_eq fun _ hv => environment?_eq hv hlimit
  rw [read?, parse?_eq hlimit]
  simp only [Option.bind_eq_bind, Option.bind_some]
  rw [hcommands, henvironments, ← environments_read path]
  rfl

end Parts

end Machine

end TexLint
