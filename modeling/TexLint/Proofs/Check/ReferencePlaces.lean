import TexLint.Proofs.Check.Resolution
import TexLint.Proofs.Document.Parameters
import Mathlib.Data.List.Forall2

/-!
# Where references point

What a command refers to stands in its parameters. The ranges of the answers are counted from the
start of the command; this module says what is found there in the document.

## The model

* `CommandUsage.placeOf` counts the range of a piece of the document from the start of a command.
* `Reference.PointsAt`: a reference is the range of a piece, and its target is the piece.
  `Reference.PointsAs` also says of what form the reference is.
* `CommandSchema.argumentAt?` is the argument that a brace group is read as, `Parameter.filesAs`
  the files that are named in it, and `CommandUsage.namedFiles` those that a command names.
* `Pointing` says case by case what the references of a command are and where they point.

## What is proved

* `CommandUsage.valueSpans_eq`, `CommandUsage.wholeSpan?_eq`: the ranges that are computed are those
  of the values, and of all that a parameter holds.
* `forall₂_filesOf`: files are named by the parameters that the schema says.
* `resolve_pointing`: the answer to each question has a reference for each place that it should
  point at, and no others.
-/

namespace TexLint

namespace CommandUsage

/-- The range of a piece of the document, counted from the start of a command. -/
def placeOf (u : CommandUsage) (v : Piece) : Span :=
  .ofLength (v.offset - u.span.start) (byteLength v.text)

variable {u : CommandUsage} {p : Parameter} {v : Piece}

theorem shift_placeOf (h : u.span.start ≤ v.offset) :
    (u.placeOf v).shift u.span.start = v.span := by
  show Span.mk (v.offset - u.span.start + u.span.start)
    (v.offset - u.span.start + byteLength v.text + u.span.start) =
      Span.mk v.offset (v.offset + byteLength v.text)
  rw [Span.mk.injEq]
  omega

theorem eq_placeOf {s : Span} (h : s.shift u.span.start = v.span) : s = u.placeOf v := by
  obtain ⟨start, stop⟩ := s
  obtain ⟨hstart, hstop⟩ : start + u.span.start = v.offset ∧
      stop + u.span.start = v.offset + byteLength v.text := Span.mk.inj h
  show Span.mk start stop = Span.mk (v.offset - u.span.start) _
  rw [Span.mk.injEq]
  omega

/-- The ranges of the values of a parameter. -/
theorem valueSpans_eq (h : u.span.start ≤ p.offset) {rest : Text} (htext : p.text = '{' :: rest) :
    u.valueSpans p = p.values.map u.placeOf := by
  rw [valueSpans, parameterPieces, List.filter_map, List.map_map, Parameter.values, List.map_map]
  refine List.map_congr_left fun piece _ => ?_
  have hopening : byteLength (p.text.take 1) = 1 := by rw [htext]; rfl
  show Span.ofLength (piece.offset + byteLength (p.text.take 1) + (p.offset - u.span.start)) _ =
    Span.ofLength (piece.offset + (p.offset + 1) - u.span.start) _
  rw [hopening]
  congr 1
  omega

/-- The range of all that a parameter holds, unless it is a brace and nothing else. -/
theorem wholeSpan?_eq (h : u.span.start ≤ p.offset) {rest : Text} (htext : p.text = '{' :: rest) :
    u.wholeSpan? p = if p.text = ['{'] then none else some (u.placeOf p.whole) := by
  have hlength : byteLength p.text < 2 ↔ p.text = ['{'] := by
    rw [htext, byteLength_cons]
    constructor
    · intro hlt
      have hrest : rest = [] := Decidable.byContradiction fun hne => by
        have hpos := byteLength_pos hne
        have hbrace : ('{').utf8Size = 1 := rfl
        omega
      rw [hrest]
    · intro heq
      rw [(List.cons.inj heq).2]
      decide
  rw [wholeSpan?]
  simp only [hlength]
  split
  · rfl
  · show some (Span.ofLength (p.offset - u.span.start + 1) _) =
      some (Span.ofLength (p.offset + 1 - u.span.start) _)
    congr 2
    omega

end CommandUsage

/-! ### Files -/

/-- The argument that the brace group at a position is read as: its own, or else the last one that
names a file. -/
def CommandSchema.argumentAt? (schema : CommandSchema) (position : Nat) : Option RequiredArgument :=
  (schema.requiredArguments[position]?).or
    (schema.requiredArguments.reverse.find? (·.file.isSome))

/-- The files that a parameter names when it is read as an argument: one for each value, or all that
it holds if that is more than a brace. -/
def Parameter.filesAs (p : Parameter) (argument : RequiredArgument) :
    List (FileArgument × Piece) :=
  match argument.file with
  | none => []
  | some file =>
    if argument.commaSeparated then p.values.map (file, ·)
    else if p.text = ['{'] then []
    else [(file, p.whole)]

/-- The files that the parameters of a command name when they are read by a schema. -/
def CommandUsage.filesAs (u : CommandUsage) (schema : CommandSchema) :
    List (FileArgument × Piece) :=
  (u.requiredParameters.mapIdx fun i p => (schema.argumentAt? i).elim [] p.filesAs).flatten

/-- The files that a command names, by the first schema it has. -/
def CommandUsage.namedFiles (u : CommandUsage) (catalogue : Catalogue) :
    List (FileArgument × Piece) :=
  ((catalogue.commandSchemas u.baseName).head?).elim [] u.filesAs

/-- A reference of a command is the range of a piece of the document, and its target is the
piece. -/
def Reference.PointsAt (u : CommandUsage) (text : Text) (r : Reference) (v : Piece) : Prop :=
  r.span?.map (·.shift u.span.start) = some v.span ∧ r.target? u text = some v.text

/-- A reference of a given form points at a piece. -/
def Reference.PointsAs (u : CommandUsage) (text : Text) (form : Span → Reference) (r : Reference)
    (v : Piece) : Prop :=
  (∃ s, r = form s) ∧ r.PointsAt u text v

/-- A reference points at the name of a file, and says what the file may be. -/
def Reference.NamesFile (u : CommandUsage) (text : Text) (r : Reference)
    (file : FileArgument × Piece) : Prop :=
  r.PointsAs u text (.file · file.1) file.2

section Rows

variable {α β γ : Type} {R : β → γ → Prop} {l : List α}

/-- Two lists that are put together row by row are related if their rows are. -/
theorem forall₂_flatten_mapIdx {f : Nat → α → List β} {g : Nat → α → List γ}
    (h : ∀ i, ∀ a ∈ l, List.Forall₂ R (f i a) (g i a)) :
    List.Forall₂ R (l.mapIdx f).flatten (l.mapIdx g).flatten := by
  induction l generalizing f g with
  | nil => exact .nil
  | cons a l ih =>
    obtain ⟨ha, hl⟩ : (∀ i, List.Forall₂ R (f i a) (g i a)) ∧
        ∀ i, ∀ b ∈ l, List.Forall₂ R (f i b) (g i b) :=
      ⟨fun i => h i a List.mem_cons_self, fun i b hb => h i b (List.mem_cons_of_mem _ hb)⟩
    rw [List.mapIdx_cons, List.mapIdx_cons, List.flatten_cons, List.flatten_cons]
    exact List.rel_append (ha 0) (ih fun i => hl (i + 1))

/-- What is put together row by row is in order if each row is, and if all of a row stands before
all of the next ones. -/
theorem pairwise_flatten_mapIdx {S : α → α → Prop} {T : γ → γ → Prop} {P : α → γ → Prop}
    {g : Nat → α → List γ} (hl : l.Pairwise S) (hrow : ∀ i, ∀ a ∈ l, (g i a).Pairwise T)
    (hP : ∀ i, ∀ a ∈ l, ∀ c ∈ g i a, P a c)
    (hT : ∀ a b c d, S a b → P a c → P b d → T c d) : (l.mapIdx g).flatten.Pairwise T := by
  induction l generalizing g with
  | nil => exact .nil
  | cons a l ih =>
    obtain ⟨hfirst, hl⟩ := List.pairwise_cons.mp hl
    rw [List.mapIdx_cons, List.flatten_cons, List.pairwise_append]
    refine ⟨hrow 0 a List.mem_cons_self, ih hl (fun i b hb => hrow _ b (List.mem_cons_of_mem _ hb))
      fun i b hb => hP _ b (List.mem_cons_of_mem _ hb), fun c hc d hd => ?_⟩
    obtain ⟨row, hmem, hd⟩ := List.mem_flatten.mp hd
    obtain ⟨i, hi, rfl⟩ := List.mem_mapIdx.mp hmem
    have hb := List.getElem_mem hi
    exact hT a l[i] c d (hfirst _ hb) (hP 0 a List.mem_cons_self c hc)
      (hP (i + 1) l[i] (List.mem_cons_of_mem _ hb) d hd)

end Rows

/-! ### What references point at -/

section Pointing

variable {path : String} {text : Text} {u : CommandUsage} {p : Parameter} {found : List Reference}
  {pieces : List Piece}

/-- A reference to a place in a parameter points at what stands there. -/
theorem Reference.pointsAt_of_holds {r : Reference} {v : Piece} (hle : u.span.start ≤ p.offset)
    (hv : p.Holds text v) (hr : r.span? = some (u.placeOf v)) : r.PointsAt u text v := by
  have hstart := hv.start
  have hshift : (u.placeOf v).shift u.span.start = v.span := CommandUsage.shift_placeOf (by omega)
  refine ⟨by rw [hr, Option.map_some, hshift], ?_⟩
  rw [Reference.target?, hr, Option.bind_some, hshift]
  exact hv.standsIn.slice?

/-- The ranges of references are those of the pieces at which they point. -/
theorem filterMap_span? (h : List.Forall₂ (Reference.PointsAt u text) found pieces) :
    found.filterMap (·.span?) = pieces.map u.placeOf := by
  induction h with
  | nil => rfl
  | @cons r v found pieces hr _ ih =>
    obtain ⟨s, hs, hshift⟩ := Option.map_eq_some_iff.mp hr.1
    rw [List.filterMap_cons_some hs, ih, List.map_cons, CommandUsage.eq_placeOf hshift]

variable (hu : u ∈ (Document.read path text).commands)
include hu

/-- References to the values of a parameter point at them. -/
theorem forall₂_valueSpans (hp : p ∈ u.requiredParameters) {form : Span → Reference}
    (hform : ∀ s, (form s).span? = some s) :
    List.Forall₂ (Reference.PointsAs u text form) ((u.valueSpans p).map form) p.values := by
  obtain ⟨rest, hrest⟩ := Document.exists_text_of_required hu hp
  have hle := (Document.standsIn_of_parameter hu (List.mem_of_mem_filter hp)).2.1
  rw [CommandUsage.valueSpans_eq hle hrest, List.map_map, List.forall₂_map_left_iff,
    List.forall₂_same]
  exact fun v hv =>
    ⟨⟨_, rfl⟩, Reference.pointsAt_of_holds hle (Document.holds_values hu hp v hv) (hform _)⟩

theorem forall₂_filesIn (hp : p ∈ u.requiredParameters) (argument : RequiredArgument) :
    List.Forall₂ (Reference.NamesFile u text) (u.filesIn p argument) (p.filesAs argument) := by
  obtain ⟨rest, hrest⟩ := Document.exists_text_of_required hu hp
  have hle := (Document.standsIn_of_parameter hu (List.mem_of_mem_filter hp)).2.1
  rw [CommandUsage.filesIn, Parameter.filesAs]
  cases argument.file with
  | none => exact .nil
  | some file =>
    dsimp only
    split
    · have hvalues : List.Forall₂ (Reference.PointsAs u text (.file · file)) _ p.values :=
        forall₂_valueSpans hu hp fun _ => rfl
      exact List.forall₂_map_right_iff.mpr hvalues
    · rw [CommandUsage.wholeSpan?_eq hle hrest]
      split
      · exact .nil
      · have hwhole := Document.holds_whole hu hp
        exact .cons ⟨⟨_, rfl⟩, Reference.pointsAt_of_holds hle hwhole rfl⟩ .nil

/-- The files that a command names are where its schema says. -/
theorem forall₂_filesOf (catalogue : Catalogue) :
    List.Forall₂ (Reference.NamesFile u text) (filesOf catalogue u) (u.namedFiles catalogue) := by
  rw [filesOf, CommandUsage.namedFiles]
  cases (catalogue.commandSchemas u.baseName).head? with
  | none => exact .nil
  | some schema =>
    refine forall₂_flatten_mapIdx fun i p hp => ?_
    show List.Forall₂ _ ((schema.argumentAt? i).elim [] (u.filesIn p)) _
    cases schema.argumentAt? i with
    | none => exact .nil
    | some argument => exact forall₂_filesIn hu hp argument

theorem holds_filesAs (hp : p ∈ u.requiredParameters) (argument : RequiredArgument) :
    ∀ file ∈ p.filesAs argument, p.Holds text file.2 := by
  rw [Parameter.filesAs]
  cases argument.file with
  | none => simp
  | some file =>
    dsimp only
    split_ifs
    · exact List.forall_mem_map.mpr (Document.holds_values hu hp)
    · simp
    · exact List.forall_mem_singleton.mpr (Document.holds_whole hu hp)

end Pointing

/-- One piece begins before another one, and ends where that begins, or before it. -/
def Piece.Precedes (v w : Piece) : Prop := v.offset < w.offset ∧ v.EndsBefore w

theorem Parameter.precedes_values (p : Parameter) : p.values.Pairwise Piece.Precedes := by
  refine List.Pairwise.imp_of_mem (fun {v w} hv _ hvw => ⟨?_, hvw⟩) p.pairwise_values
  exact Nat.lt_of_lt_of_le (length_pos_of_mem_values hv) hvw

theorem Parameter.precedes_filesAs (p : Parameter) (argument : RequiredArgument) :
    (p.filesAs argument).Pairwise fun a b => a.2.Precedes b.2 := by
  rw [filesAs]
  cases argument.file with
  | none => exact .nil
  | some file =>
    dsimp only
    split_ifs
    · exact List.pairwise_map.mpr p.precedes_values
    · exact .nil
    · exact List.pairwise_singleton _ _

/-- Pieces stand one after the other in the required parameters of a command. -/
structure CommandUsage.InOrder (u : CommandUsage) (text : Text) (pieces : List Piece) : Prop where
  /-- They follow each other. -/
  precedes : pieces.Pairwise Piece.Precedes
  /-- Each stands in one of the parameters. -/
  holds : ∀ v ∈ pieces, ∃ p ∈ u.requiredParameters, p.Holds text v

section Pointing

variable {path : String} {text : Text} {u : CommandUsage} {p : Parameter}
  (hu : u ∈ (Document.read path text).commands)
include hu

omit hu in
theorem inOrder_nil : u.InOrder text [] := ⟨.nil, by simp⟩

theorem inOrder_values (hp : p ∈ u.requiredParameters) : u.InOrder text p.values :=
  ⟨p.precedes_values, fun v hv => ⟨p, hp, Document.holds_values hu hp v hv⟩⟩

/-- The files that a command names stand one after the other in its parameters. -/
theorem inOrder_namedFiles (catalogue : Catalogue) :
    u.InOrder text ((u.namedFiles catalogue).map Prod.snd) := by
  rw [CommandUsage.namedFiles]
  cases (catalogue.commandSchemas u.baseName).head? with
  | none => exact inOrder_nil
  | some schema =>
    have hholds (i : Nat) (p : Parameter) (hp : p ∈ u.requiredParameters) :
        ∀ file ∈ (schema.argumentAt? i).elim [] p.filesAs, p.Holds text file.2 := by
      cases schema.argumentAt? i with
      | none => simp
      | some argument => exact holds_filesAs hu hp argument
    constructor
    · have hparameters := (Document.pairwise_of_command hu).filter (·.isRequired)
      refine List.pairwise_map.mpr (pairwise_flatten_mapIdx hparameters ?_ hholds ?_)
      · intro i p _
        cases schema.argumentAt? i with
        | none => exact .nil
        | some argument => exact p.precedes_filesAs argument
      · intro p q a b hpq ha hb
        have hpq : p.span.stop ≤ q.offset := hpq
        have hstop : a.2.offset + byteLength a.2.text ≤ p.span.stop := ha.stop
        have hstart := hb.start
        show a.2.offset < b.2.offset ∧ a.2.offset + byteLength a.2.text ≤ b.2.offset
        omega
    · refine List.forall_mem_map.mpr ?_
      intro file hfile
      obtain ⟨row, hrow, hfile⟩ := List.mem_flatten.mp hfile
      obtain ⟨i, hi, rfl⟩ := List.mem_mapIdx.mp hrow
      exact ⟨_, List.getElem_mem hi, hholds i _ (List.getElem_mem hi) file hfile⟩

end Pointing

/-- The references of a command, given the commands that are defined and what is known of aliases.
They point at places in its required parameters, one after the other, and the first case that
applies says at which: a label command at the values of the first of these parameters, a command
that names files at the files, a link command at the values again. Any other command refers to its
definitions, if there are any. -/
structure Pointing (catalogue : Catalogue) (defined : List String) (aliases : AliasCache)
    (u : CommandUsage) (text : Text) (found : List Reference) : Prop where
  /-- The ranges are in order and do not overlap. -/
  ordered : (found.filterMap (·.span?)).Pairwise fun a b => a.start < b.start ∧ a.stop ≤ b.start
  /-- The ranges are slices of the text, and each lies in a required parameter behind its brace. -/
  inside : ∀ s ∈ found.filterMap (·.span?), (slice? text (s.shift u.span.start)).isSome = true ∧
    ∃ p ∈ u.requiredParameters, p.offset + 1 ≤ u.span.start + s.start ∧
      u.span.start + s.stop ≤ p.span.stop
  /-- A label command has a label for each value of its first required parameter. -/
  labels : ∀ first, u.firstRequired = some first →
    aliases.isAlias Vocabulary.labelReferences u.baseName = true →
      List.Forall₂ (Reference.PointsAs u text .label) found first.values
  /-- Any other command that names files has a reference for each of them. -/
  files : aliases.isAlias Vocabulary.labelReferences u.baseName = false →
    u.namedFiles catalogue ≠ [] →
      List.Forall₂ (Reference.NamesFile u text) found (u.namedFiles catalogue)
  /-- Any other command for links has a link for each value of its first required parameter. -/
  urls : ∀ first, u.firstRequired = some first →
    aliases.isAlias Vocabulary.labelReferences u.baseName = false → u.namedFiles catalogue = [] →
      u.baseName ∈ Vocabulary.urls →
        List.Forall₂ (Reference.PointsAs u text .url) found first.values
  /-- Any other command, and one without a required parameter, refers to its definitions. -/
  definitions : (u.firstRequired.isSome = true →
    aliases.isAlias Vocabulary.labelReferences u.baseName = false ∧ u.namedFiles catalogue = [] ∧
      u.baseName ∉ Vocabulary.urls) → found = definitionReference defined u

section Pointing

variable {path : String} {text : Text} {u : CommandUsage} {found : List Reference}
  {pieces : List Piece} (hu : u ∈ (Document.read path text).commands)
include hu

/-- Ranges of pieces that stand in order in the parameters are in order themselves. -/
theorem ordered_and_inside (hspans : found.filterMap (·.span?) = pieces.map u.placeOf)
    (hpieces : u.InOrder text pieces) :
    ((found.filterMap (·.span?)).Pairwise fun a b => a.start < b.start ∧ a.stop ≤ b.start) ∧
      ∀ s ∈ found.filterMap (·.span?), (slice? text (s.shift u.span.start)).isSome = true ∧
        ∃ p ∈ u.requiredParameters, p.offset + 1 ≤ u.span.start + s.start ∧
          u.span.start + s.stop ≤ p.span.stop := by
  have hstart {v : Piece} {p : Parameter} (hp : p ∈ u.requiredParameters) (hv : p.Holds text v) :
      u.span.start ≤ v.offset := by
    have hparameter := (Document.standsIn_of_parameter hu (List.mem_of_mem_filter hp)).2.1
    have hdelimiter := hv.start
    omega
  rw [hspans]
  constructor
  · refine List.pairwise_map.mpr (hpieces.precedes.imp_of_mem ?_)
    intro v w hv hw hvw
    obtain ⟨p, hp, hpv⟩ := hpieces.holds v hv
    obtain ⟨q, hq, hqw⟩ := hpieces.holds w hw
    have hv := hstart hp hpv
    have hw := hstart hq hqw
    obtain ⟨hlt, hle⟩ := hvw
    have hle : v.offset + byteLength v.text ≤ w.offset := hle
    show v.offset - u.span.start < w.offset - u.span.start ∧
      v.offset - u.span.start + byteLength v.text ≤ w.offset - u.span.start
    omega
  · intro s hs
    obtain ⟨v, hv, rfl⟩ := List.mem_map.mp hs
    obtain ⟨p, hp, hpv⟩ := hpieces.holds v hv
    have hle := hstart hp hpv
    have hdelimiter := hpv.start
    have hstop : v.offset + byteLength v.text ≤ p.span.stop := hpv.stop
    rw [CommandUsage.shift_placeOf hle, hpv.standsIn.slice?]
    refine ⟨rfl, p, hp, ?_⟩
    show p.offset + 1 ≤ u.span.start + (v.offset - u.span.start) ∧
      u.span.start + (v.offset - u.span.start + byteLength v.text) ≤ p.span.stop
    omega

omit hu in
theorem mem_requiredParameters_of_first {first : Parameter} (h : u.firstRequired = some first) :
    first ∈ u.requiredParameters :=
  List.mem_filter.mpr ⟨List.mem_of_find?_eq_some h, List.find?_some h⟩

omit hu in
/-- A command without a required parameter names no files. -/
theorem namedFiles_of_firstRequired_eq_none (h : u.firstRequired = none) (catalogue : Catalogue) :
    u.namedFiles catalogue = [] := by
  have hnil : u.requiredParameters = [] := List.filter_eq_nil_iff.mpr (List.find?_eq_none.mp h)
  rw [CommandUsage.namedFiles]
  cases (catalogue.commandSchemas u.baseName).head? with
  | none => rfl
  | some schema =>
    rw [Option.elim_some, CommandUsage.filesAs, hnil]
    rfl

/-- References are found for files if a command names any. -/
theorem isEmpty_filesOf (catalogue : Catalogue) :
    (filesOf catalogue u).isEmpty = true ↔ u.namedFiles catalogue = [] := by
  rw [List.isEmpty_iff_length_eq_zero, (forall₂_filesOf hu catalogue).length_eq,
    List.length_eq_zero_iff]

/-- The ranges of the references are those of pieces that stand in order in the parameters. -/
theorem exists_inOrder_of_references (catalogue : Catalogue) (defined : List String)
    (aliases : AliasCache) : ∃ pieces, u.InOrder text pieces ∧
      (references catalogue defined aliases u).filterMap (·.span?) = pieces.map u.placeOf := by
  have hdefinition : (definitionReference defined u).filterMap (·.span?) = [] := by
    rw [definitionReference]
    split <;> rfl
  have hvalues {first : Parameter} (hfirst : u.firstRequired = some first) (form : Span → Reference)
      (hform : ∀ s, (form s).span? = some s) : ∃ pieces, u.InOrder text pieces ∧
        ((u.valueSpans first).map form).filterMap (·.span?) = pieces.map u.placeOf := by
    have hmem := mem_requiredParameters_of_first hfirst
    have hfound := (forall₂_valueSpans hu hmem hform).imp fun _ _ h => h.2
    exact ⟨first.values, inOrder_values hu hmem, filterMap_span? hfound⟩
  rw [references]
  split
  · exact ⟨[], inOrder_nil, hdefinition⟩
  · next first hfirst =>
    dsimp only
    split_ifs
    · exact hvalues hfirst .label fun _ => rfl
    · have hfound := (forall₂_filesOf hu catalogue).imp fun _ _ h => h.2
      exact ⟨_, inOrder_namedFiles hu catalogue,
        filterMap_span? (List.forall₂_map_right_iff.mpr hfound)⟩
    · exact hvalues hfirst .url fun _ => rfl
    · exact ⟨[], inOrder_nil, hdefinition⟩

theorem pointing_references (catalogue : Catalogue) (defined : List String)
    (aliases : AliasCache) :
    Pointing catalogue defined aliases u text (references catalogue defined aliases u) := by
  obtain ⟨pieces, hpieces, hspans⟩ := exists_inOrder_of_references hu catalogue defined aliases
  obtain ⟨hordered, hinside⟩ := ordered_and_inside hu hspans hpieces
  have hempty := isEmpty_filesOf hu catalogue
  refine ⟨hordered, hinside, ?labels, ?files, ?urls, ?definitions⟩
  case labels =>
    intro first hfirst hlabel
    simp only [references, hfirst, hlabel, if_true]
    exact forall₂_valueSpans hu (mem_requiredParameters_of_first hfirst) fun _ => rfl
  case files =>
    intro hlabel hnamed
    cases hfirst : u.firstRequired with
    | none => exact absurd (namedFiles_of_firstRequired_eq_none hfirst catalogue) hnamed
    | some first =>
      have hfiles : (filesOf catalogue u).isEmpty = false := by
        rwa [← Bool.not_eq_true, hempty]
      simp only [references, hfirst, hlabel, hfiles]
      exact forall₂_filesOf hu catalogue
  case urls =>
    intro first hfirst hlabel hnamed hurl
    simp only [references, hfirst, hlabel, hempty.mpr hnamed, List.contains_iff_mem.mpr hurl]
    exact forall₂_valueSpans hu (mem_requiredParameters_of_first hfirst) fun _ => rfl
  case definitions =>
    intro hother
    cases hfirst : u.firstRequired with
    | none => simp only [references, hfirst]
    | some first =>
      obtain ⟨hlabel, hnamed, hurl⟩ := hother (by rw [hfirst]; rfl)
      simp [references, hfirst, hlabel, hempty.mpr hnamed, hurl]

/-- A command of a document is resolved against a manuscript that is ready, whatever is known of
commands and aliases, and it has references to all that it should point at, and to nothing else. -/
theorem resolve_pointing {m : Manuscript} (hready : m.ensureReady = .ok ()) (catalogue : Catalogue)
    (aliases : AliasCache) : ∃ r, resolve catalogue m aliases u = .ok r ∧
      Pointing catalogue m.definedCommands r.aliases u text r.found := by
  have hindexing : m.indexing = false := by
    rw [Manuscript.ensureReady] at hready
    split at hready
    · cases hready
    · next h => exact Bool.not_eq_true _ ▸ h
  refine ⟨_, by rw [resolve_eq, if_neg (by simp [hindexing])], ?_⟩
  exact pointing_references hu catalogue m.definedCommands _

end Pointing

/-- A command names the two files of a list, one of them of two bytes, and one more with a comma in
its name; the source cuts off the labels of another one. -/
theorem resolve_pointing_cut_off :
    let text := "\\inc\x7bé,,b\x7d\x7bc,d\x7d\\ref\x7be,,f".toList
    let m := Manuscript.ofDocuments [.read "a.tex" text]
    let tex : FileArgument := ⟨["tex"], "tex"⟩
    let bib : FileArgument := ⟨["bib"], "bib"⟩
    let catalogue := (Catalogue.empty.merge ⟨[⟨"inc",
      [.required ⟨"files", some tex, true⟩, .required ⟨"file", some bib, false⟩], none⟩], []⟩).1
    let inc : CommandUsage := ⟨"\\inc", ⟨0, 16⟩,
      [⟨.required, 4, "\x7bé,,b\x7d".toList, [.text "é,,b".toList]⟩,
        ⟨.required, 11, "\x7bc,d\x7d".toList, [.text "c,d".toList]⟩], 0⟩
    let ref : CommandUsage := ⟨"\\ref", ⟨16, 25⟩,
      [⟨.required, 20, "\x7be,,f".toList, [.text "e,,f".toList]⟩], 1⟩
    inc ∈ (Document.read "a.tex" text).commands ∧ ref ∈ (Document.read "a.tex" text).commands ∧
      m.ensureReady = .ok () ∧
      (∃ r, resolve catalogue m .empty inc = .ok r ∧
        Pointing catalogue m.definedCommands r.aliases inc text r.found ∧
        r.found = [.file ⟨5, 7⟩ tex, .file ⟨9, 10⟩ tex, .file ⟨12, 15⟩ bib]) ∧
      ∃ r, resolve catalogue m .empty ref = .ok r ∧
        Pointing catalogue m.definedCommands r.aliases ref text r.found ∧
        r.found = [.label ⟨5, 6⟩, .label ⟨8, 9⟩] := by
  intro text m tex bib catalogue inc ref
  have hinc : inc ∈ (Document.read "a.tex" text).commands := by decide +kernel
  have href : ref ∈ (Document.read "a.tex" text).commands := by decide +kernel
  have hfiles : (resolve catalogue m .empty inc).map (·.found) =
      .ok [.file ⟨5, 7⟩ tex, .file ⟨9, 10⟩ tex, .file ⟨12, 15⟩ bib] := by decide +kernel
  have hlabels : (resolve catalogue m .empty ref).map (·.found) =
      .ok [.label ⟨5, 6⟩, .label ⟨8, 9⟩] := by decide +kernel
  obtain ⟨r, hr, hpointing⟩ := resolve_pointing hinc (m := m) rfl catalogue .empty
  obtain ⟨r', hr', hpointing'⟩ := resolve_pointing href (m := m) rfl catalogue .empty
  rw [hr] at hfiles
  rw [hr'] at hlabels
  exact ⟨hinc, href, rfl, ⟨r, hr, hpointing, Except.ok.inj hfiles⟩,
    r', hr', hpointing', Except.ok.inj hlabels⟩

/-- A lone brace is an argument without a reference, although it holds a text, which is empty. -/
theorem resolve_lone_brace : ¬ ∀ (text : Text) (catalogue : Catalogue), ∀ u ∈
      (Document.read "a.tex" text).commands, ∀ schema argument p,
    (catalogue.commandSchemas u.baseName).head? = some schema → u.requiredParameters = [p] →
      schema.argumentAt? 0 = some argument → argument.file.isSome = true →
        argument.commaSeparated = false →
          ∃ r x, resolve catalogue (.ofDocuments [.read "a.tex" text]) .empty u = .ok r ∧
            r.found = [x] ∧ x.PointsAt u text p.whole := by
  intro h
  let argument : RequiredArgument := ⟨"file", some ⟨["tex"], "tex"⟩, false⟩
  let schema : CommandSchema := ⟨"input", [.required argument], none⟩
  let catalogue : Catalogue := (Catalogue.empty.merge ⟨[schema], []⟩).1
  let text : Text := "\\input\x7b".toList
  let group : Parameter := ⟨.required, 6, ['{'], []⟩
  let u : CommandUsage := ⟨"\\input", ⟨0, 7⟩, [group], 0⟩
  obtain ⟨r, x, hr, hx, -⟩ := h text catalogue u (by decide +kernel) schema argument group
    (by decide +kernel) rfl rfl rfl rfl
  have hfound : (resolve catalogue (.ofDocuments [.read "a.tex" text]) .empty u).map (·.found) =
      .ok [] := by decide +kernel
  rw [hr] at hfound
  have hnil : r.found = [] := Except.ok.inj hfound
  rw [hnil] at hx
  cases hx

end TexLint
