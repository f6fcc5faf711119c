import TexLint.Proofs.Document.Parameters

/-!
# The ranges of a document

Everything that a document gives comes with its range. This module says what stands in the text at
these ranges, however malformed the text is.

## The model

* `Document.InRange`: all the ranges of a document lie in its text, between whole characters, and
  where something is written, its range is that of what is written.

## What is proved

* `toUsage?_ofTree?`: an environment is named by the first brace group of its beginning, and its
  name stands behind the brace.
* `exists_token_of_mem_errors`: a report that tokens give rise to has the range of one of them.
* `inRange_read`: the ranges of a document that has been read are in its text.
-/

namespace TexLint

open SyntaxTree

/-! ### Environments -/

/-- The name that is written in a brace group. -/
def SyntaxTree.groupName (group : SyntaxTree) : Text :=
  let inner := group.text.drop 1
  if inner.getLast? = some '}' then inner.dropLast else inner

/-- The beginning of an environment and the brace group that names it, each with its offset. -/
def SyntaxTree.Visit.namedBeginning? (v : Visit) :
    Option ((Nat × SyntaxTree) × (Nat × SyntaxTree)) :=
  if v.tree.isNode .environment then
    ((withOffsets v.offset v.tree.children).find? (·.2.isNode .opening)).bind fun opening =>
      ((withOffsets opening.1 opening.2.children).find? (·.2.isNode .required)).map (opening, ·)
  else none

/-- An environment is named by the first brace group of its beginning, and the name stands behind
the brace. -/
theorem toUsage?_ofTree? (v : Visit) :
    (Environment.ofTree? v.offset v.tree).bind (·.toUsage?) =
      v.namedBeginning?.map fun (opening, group) =>
        ⟨String.ofList group.2.groupName, .ofLength opening.1 opening.2.length,
          .ofLength (group.1 + 1) (byteLength group.2.groupName)⟩ := by
  rw [Environment.ofTree?, Visit.namedBeginning?]
  split
  · simp only [Option.bind_map, Option.map_bind]
    refine congrArg _ (funext fun opening => ?_)
    show ((Environment.nameOf (opening.2.parameters opening.1)).map _) = _
    rw [Environment.nameOf, find?_isRequired_parameters, Option.map_map, Option.map_bind]
    cases hfind : (withOffsets opening.1 opening.2.children).find? (·.2.isNode .required) with
    | none => simp [hfind]
    | some group =>
      have hrequired : group.2.isNode .required = true := by simpa using List.find?_some hfind
      simp only [Option.bind_some, Function.comp_apply, toParameter?_of_required _ hrequired,
        Option.map_some, hfind]
      rfl
  · rfl

theorem environments_read (path : String) (text : Text) : (Document.read path text).environments =
    ((parse text).tree.preorder 0 0).filterMap fun v =>
      (Environment.ofTree? v.offset v.tree).bind (·.toUsage?) :=
  List.filterMap_filterMap

variable {path : String} {text : Text}

theorem find?_of_namedBeginning? {v : Visit} {opening group : Nat × SyntaxTree}
    (h : v.namedBeginning? = some (opening, group)) :
    (withOffsets v.offset v.tree.children).find? (·.2.isNode .opening) = some opening ∧
      (withOffsets opening.1 opening.2.children).find? (·.2.isNode .required) = some group := by
  rw [Visit.namedBeginning?] at h
  split at h
  · obtain ⟨_, hopening, h⟩ := Option.bind_eq_some_iff.mp h
    obtain ⟨_, hgroup, h⟩ := Option.map_eq_some_iff.mp h
    cases h
    exact ⟨hopening, hgroup⟩
  · cases h

theorem partOf_namedBeginning? {v : Visit} (hv : v ∈ (parse text).tree.preorder 0 0)
    {opening group : Nat × SyntaxTree} (h : v.namedBeginning? = some (opening, group)) :
    PartOf text opening.1 opening.2 ∧ PartOf text group.1 group.2 ∧
      group.2.isNode .required = true ∧ opening.2.isNode .opening = true ∧
        group ∈ withOffsets opening.1 opening.2.children := by
  obtain ⟨hopening, hgroup⟩ := find?_of_namedBeginning? h
  have hpart := (PartOf.of_mem_preorder hv).child (List.mem_of_find?_eq_some hopening)
  have hmem := List.mem_of_find?_eq_some hgroup
  exact ⟨hpart, hpart.child hmem, by simpa using List.find?_some hgroup,
    by simpa using List.find?_some hopening, hmem⟩

/-- An environment of a document is read off its beginning and the brace group that names it. -/
theorem exists_namedBeginning {e : EnvironmentUsage}
    (he : e ∈ (Document.read path text).environments) :
    ∃ v ∈ (parse text).tree.preorder 0 0, ∃ opening group,
      v.namedBeginning? = some (opening, group) ∧
        e = ⟨String.ofList group.2.groupName, .ofLength opening.1 opening.2.length,
          .ofLength (group.1 + 1) (byteLength group.2.groupName)⟩ := by
  rw [environments_read] at he
  obtain ⟨v, hv, he⟩ := List.mem_filterMap.mp he
  rw [toUsage?_ofTree?] at he
  obtain ⟨⟨opening, group⟩, hbeginning, rfl⟩ := Option.map_eq_some_iff.mp he
  exact ⟨v, hv, opening, group, hbeginning, rfl⟩

/-- The name in a brace group stands behind the brace. -/
theorem standsIn_groupName {group : SyntaxTree} {inner : Text} (h : group.text = '{' :: inner) :
    (⟨1, group.groupName⟩ : Piece).StandsIn 0 group.text := by
  have hname : ∃ ending, inner = group.groupName ++ ending := by
    rw [groupName, h]
    simp only [List.drop_one, List.tail_cons]
    split
    · obtain ⟨ending, hending⟩ := List.dropLast_prefix inner
      exact ⟨ending, hending.symm⟩
    · exact ⟨[], (List.append_nil inner).symm⟩
  obtain ⟨ending, hending⟩ := hname
  exact ⟨['{'], ending, by rw [h, List.append_assoc, ← hending]; rfl, rfl⟩

/-! ### Reports -/

/-- A report that tokens give rise to has the range of one of them. -/
theorem exists_token_of_mem_errors {r : Reading} {tokens : List Token} {e : SyntaxError}
    (h : e ∈ (tokens.foldl Reading.next r).errors) : e ∈ r.errors ∨ ∃ before t behind,
      tokens = before ++ t :: behind ∧
        e.span = .ofLength (r.offset + byteLength (tokensText before)) (byteLength t.text) := by
  induction tokens generalizing r with
  | nil => exact .inl h
  | cons t tokens ih =>
    rcases ih h with hnow | ⟨before, u, behind, rfl, hspan⟩
    · rw [Reading.next, List.mem_append, List.mem_reverse, List.mem_map] at hnow
      rcases hnow with ⟨defect, -, rfl⟩ | hnow
      · exact .inr ⟨[], t, tokens, rfl, rfl⟩
      · exact .inl hnow
    · refine .inr ⟨t :: before, u, behind, rfl, ?_⟩
      rw [hspan]
      simp [Reading.next, Span.ofLength, tokensText, Nat.add_assoc]

/-! ### Documents -/

/-- The ranges of a document lie in its text, between whole characters. Those of names and of
parameters are where the names and the parameters are written. -/
structure Document.InRange (d : Document) : Prop where
  /-- The commands, their names and their parameters. -/
  commands : ∀ u ∈ d.commands, (slice? d.text u.span).isSome ∧
    slice? d.text u.nameSpan = some u.name.toList ∧
      ∀ p ∈ u.parameters, slice? d.text p.span = some p.text
  /-- The environments and their names. -/
  environments : ∀ e ∈ d.environments, (slice? d.text e.span).isSome ∧
    slice? d.text e.nameSpan = some e.name.toList
  /-- The reports. -/
  errors : ∀ e ∈ d.errors, (slice? d.text e.span).isSome

theorem slice?_nameSpan_of_command {u : CommandUsage}
    (hu : u ∈ (Document.read path text).commands) :
    slice? text u.nameSpan = some u.name.toList := by
  obtain ⟨j, hj⟩ := List.mem_iff_getElem?.mp hu
  obtain ⟨v, hv, t, rest, htree, -, rfl⟩ := Document.exists_visit_of_command hj
  have hname : (⟨v.offset, t.text⟩ : Piece).StandsIn v.offset v.tree.text :=
    ⟨[], textOfAll rest, by simp [htree], by simp⟩
  have hplace := hname.trans (w := ⟨v.offset, v.tree.text⟩) (PartOf.of_mem_preorder hv).standsIn
  simpa [CommandUsage.nameSpan, Visit.span, Piece.span, Span.ofLength] using hplace.slice?

theorem slice?_span_of_environment {e : EnvironmentUsage}
    (he : e ∈ (Document.read path text).environments) :
    (slice? text e.span).isSome ∧ slice? text e.nameSpan = some e.name.toList := by
  obtain ⟨v, hv, opening, group, hbeginning, rfl⟩ := exists_namedBeginning he
  obtain ⟨hopening, hgroup, hrequired, -⟩ := partOf_namedBeginning? hv hbeginning
  obtain ⟨inner, htext⟩ := hgroup.exists_text_of_required hrequired
  have hname := (standsIn_groupName htext).shift group.1
  rw [Nat.zero_add] at hname
  have hslice := (hname.trans (w := ⟨group.1, group.2.text⟩) hgroup.standsIn).slice?
  refine ⟨by rw [hopening.slice?_span]; rfl, ?_⟩
  simpa [Piece.span, Piece.shift, Span.ofLength, Nat.add_comm 1] using hslice

theorem slice?_span_of_error {e : SyntaxError} (he : e ∈ (Document.read path text).errors) :
    (slice? text e.span).isSome := by
  have htext := tokensText_tokenize text
  rcases List.mem_append.mp he with he | he
  · rw [List.mem_reverse] at he
    rcases exists_token_of_mem_errors he with hstart | ⟨before, t, behind, htokens, hspan⟩
    · cases hstart
    · rw [htokens] at htext
      have hslice := slice?_append (tokensText before) t.text (tokensText behind)
      have hjoined : tokensText before ++ t.text ++ tokensText behind = text := by
        rw [← htext]
        simp [tokensText]
      have hoffset : Reading.start.offset = 0 := rfl
      rw [hspan, hoffset, Nat.zero_add, ← hjoined, hslice]
      rfl
  · obtain ⟨defect, -, rfl⟩ := List.mem_map.mp he
    have hend := slice?_append text [] []
    have hoffset : ((tokenize text).foldl Reading.next .start).offset = byteLength text := by
      rw [offset_foldl_next, htext]
      exact Nat.zero_add _
    rw [List.append_nil, List.append_nil] at hend
    show (slice? text (.ofLength _ 0)).isSome
    rw [hoffset]
    exact Option.isSome_of_eq_some hend

/-- The ranges of a document that has been read are in its text. -/
theorem inRange_read (path : String) (text : Text) : (Document.read path text).InRange where
  commands u hu := by
    obtain ⟨v, hv, hspan, -⟩ := Document.exists_visit_of_mem_commands hu
    refine ⟨?_, slice?_nameSpan_of_command hu, fun p hp => ?_⟩
    · rw [hspan, Visit.span]
      show (slice? text _).isSome
      rw [(PartOf.of_mem_preorder hv).slice?_span]
      rfl
    · exact (Document.standsIn_of_parameter hu hp).1.slice?
  environments _ he := slice?_span_of_environment he
  errors _ he := slice?_span_of_error he

end TexLint
