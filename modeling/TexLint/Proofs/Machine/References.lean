import TexLint.Check.Reference
import TexLint.Proofs.Check.Alias
import TexLint.Proofs.Machine.Manuscripts

/-!
# Resolving references with sizes that fit

What a machine does to say where a command refers to: it takes the offset of the command from that
of a parameter, splits the parameter, and moves the ranges of the values behind that difference.

## The model

* `valueSpans?`, `wholeSpan?` are the ranges in one parameter; `references?` follows `references`.
* `update?` brings the aliases up to date with the definitions that are found.

## What is proved

* `valueSpans?_eq`, `wholeSpan?_eq`: a parameter does not start before its command, and its values
  do not end behind it.
* `resolve?_eq`: each command of a manuscript whose documents fit is resolved.
-/

namespace TexLint

namespace Machine

/-! ### Ranges in a parameter -/

/-- Where a parameter stands, counted from the start of the command. -/
def relativeOffset? (u : CommandUsage) (p : Parameter) : Option Nat :=
  difference? p.offset u.span.start

/-- The places of the values in a parameter that are not empty. -/
def valueSpans? (u : CommandUsage) (p : Parameter) : Option (List Span) := do
  let offset ← relativeOffset? u p
  let spans ← parameterSpans? p.text
  (spans.filter fun s => s.start != s.stop).mapM (shift? · offset)

/-- The place of all that a parameter holds, if there is more to it than a delimiter. -/
def wholeSpan? (u : CommandUsage) (p : Parameter) : Option (Option Span) :=
  if byteLength p.text < 2 then return none
  else do
    let offset ← relativeOffset? u p
    let start ← size? (offset + 1)
    let interior ← stripGroup? p.text
    return some (← rangeAt? start (byteLength interior))

/-! ### References -/

/-- The files that a parameter names if it is read as the given argument. -/
def filesIn? (u : CommandUsage) (p : Parameter) (argument : RequiredArgument) :
    Option (List Reference) :=
  match argument.file with
  | none => return []
  | some file => do
    if argument.commaSeparated then return (← valueSpans? u p).map (.file · file)
    else return (← wholeSpan? u p).toList.map (.file · file)

/-- The files that the parameters of a command name, read as its schema says. -/
def fileReferences? (u : CommandUsage) (schema : CommandSchema) : Option (List Reference) := do
  let arguments := schema.requiredArguments
  let lastFile := arguments.reverse.find? (·.file.isSome)
  let found ← u.requiredParameters.zipIdx.mapM fun (p, i) =>
    ((arguments[i]?).or lastFile).elim (some []) (filesIn? u p)
  return found.flatten

/-- The files that a command names, by the first schema it has. -/
def filesOf? (catalogue : Catalogue) (u : CommandUsage) : Option (List Reference) :=
  ((catalogue.commandSchemas u.baseName).head?).elim (some []) (fileReferences? u)

/-- What a command refers to, given the commands that the manuscript defines and what is known of
aliases. -/
def references? (catalogue : Catalogue) (defined : List String) (aliases : AliasCache)
    (u : CommandUsage) : Option (List Reference) :=
  match u.firstRequired with
  | none => return definitionReference defined u
  | some first => do
    if aliases.isAlias Vocabulary.labelReferences u.baseName then
      return (← valueSpans? u first).map .label
    let files ← filesOf? catalogue u
    if !files.isEmpty then return files
    if Vocabulary.urls.contains u.baseName then return (← valueSpans? u first).map .url
    return definitionReference defined u

/-- Makes the closure of a base set anew if the one that is kept is out of date. -/
def update? (aliases : AliasCache) (base : List String) (m : Manuscript) :
    Option (Manuscript × AliasCache) :=
  match base with
  | [] => return (m, aliases)
  | key :: _ => do
    let definitions := (← definitions? m).map (·.value)
    let fingerprint := m.fingerprint.getD (definitions.flatMap fun d => d.name :: d.bodyNames)
    let kept := { m with fingerprint := some fingerprint }
    if (aliases.sets.get? key).any (·.fingerprint == fingerprint) then return (kept, aliases)
    return (kept, ⟨aliases.sets.insert key ⟨fingerprint, aliasClosure definitions base⟩⟩)

/-- What a command refers to, with the aliases brought up to date first. -/
def resolve? (catalogue : Catalogue) (m : Manuscript) (aliases : AliasCache) (u : CommandUsage) :
    Option (Except ManuscriptError (Resolved (List Reference))) :=
  match m.ensureReady with
  | .error e => return .error e
  | .ok () => do
    let (m, aliases) ← update? aliases Vocabulary.labelReferences m
    let defined := (← definitions? m).map (·.value.name)
    return .ok ⟨← references? catalogue defined aliases u, m, aliases⟩

/-! ### What is found -/

section Found

variable {d : Document} {m : Manuscript} {u : CommandUsage} {p : Parameter}

theorem valueSpans?_eq (hstart : u.span.start ≤ p.offset)
    (hstop : p.offset + byteLength p.text < limit) : valueSpans? u p = some (u.valueSpans p) := by
  have hvalues : ((parameterPieces p.text).map (·.span)).filter (fun s => s.start != s.stop) =
      ((parameterPieces p.text).filter (!·.text.isEmpty)).map (·.span) := by
    rw [List.filter_map]
    refine congrArg _ (List.filter_congr fun v _ => ?_)
    cases htext : v.text with
    | nil => simp [Piece.span, Span.ofLength, htext]
    | cons c rest =>
      have hpos := c.utf8Size_pos
      simp [Piece.span, Span.ofLength, htext]
      omega
  have hshift : (((parameterPieces p.text).filter (!·.text.isEmpty)).map (·.span)).mapM
      (shift? · (u.relativeOffset p)) = some (u.valueSpans p) := by
    rw [List.mapM_map]
    refine mapM_eq fun v hv => ?_
    have hle := stop_le_of_mem_parameterPieces (List.mem_of_mem_filter hv)
    rw [Function.comp_apply, shift?_eq (Nat.le_add_right _ _)
      (by rw [CommandUsage.relativeOffset]; omega)]
    simp [Piece.span, Piece.shift, Span.ofLength, Span.shift]
    omega
  rw [valueSpans?, relativeOffset?, difference?_eq hstart, parameterSpans?_eq (by omega)]
  simp only [Option.bind_eq_bind, Option.bind_some]
  rw [hvalues]
  exact hshift

theorem wholeSpan?_eq (hstart : u.span.start ≤ p.offset)
    (hstop : p.offset + byteLength p.text < limit) : wholeSpan? u p = some (u.wholeSpan? p) := by
  have hle := byteLength_stripGroup_le p.text
  rw [wholeSpan?, CommandUsage.wholeSpan?]
  split
  · rfl
  · next hlength =>
    have hopening : 0 < byteLength (p.text.take 1) := by
      refine byteLength_pos fun hnil => hlength ?_
      rw [List.take_eq_nil_iff.mp hnil |>.resolve_left (by decide)]
      decide
    rw [relativeOffset?, difference?_eq hstart, stripGroup?_eq (by omega)]
    simp only [Option.bind_eq_bind, Option.bind_some]
    rw [size?_eq (by omega), Option.bind_some, rangeAt?_eq (by omega)]
    rfl

theorem filesIn?_eq (hstart : u.span.start ≤ p.offset)
    (hstop : p.offset + byteLength p.text < limit) (argument : RequiredArgument) :
    filesIn? u p argument = some (u.filesIn p argument) := by
  rw [filesIn?, CommandUsage.filesIn]
  cases argument.file with
  | none => rfl
  | some file =>
    simp only [valueSpans?_eq hstart hstop, wholeSpan?_eq hstart hstop]
    split <;> rfl

theorem fileReferences?_eq
    (h : ∀ p ∈ u.parameters, u.span.start ≤ p.offset ∧ p.offset + byteLength p.text < limit)
    (schema : CommandSchema) : fileReferences? u schema = some (u.fileReferences schema) := by
  let arguments := schema.requiredArguments
  let lastFile := arguments.reverse.find? (·.file.isSome)
  have hfound : (u.requiredParameters.zipIdx.mapM fun (p, i) =>
      ((arguments[i]?).or lastFile).elim (some []) (filesIn? u p)) =
        some (u.requiredParameters.zipIdx.map fun (p, i) =>
          ((arguments[i]?).or lastFile).elim [] (u.filesIn p)) := by
    refine mapM_eq fun x hx => ?_
    have hmem := List.mem_of_mem_filter (List.fst_mem_of_mem_zipIdx hx)
    show Option.elim _ _ (filesIn? u x.1) = some (Option.elim _ _ (u.filesIn x.1))
    cases (arguments[x.2]?).or lastFile with
    | none => rfl
    | some argument => exact filesIn?_eq (h x.1 hmem).1 (h x.1 hmem).2 argument
  rw [fileReferences?, CommandUsage.fileReferences, List.mapIdx_eq_zipIdx_map]
  show Option.bind _ _ = _
  rw [hfound]
  rfl

theorem references?_eq
    (h : ∀ p ∈ u.parameters, u.span.start ≤ p.offset ∧ p.offset + byteLength p.text < limit)
    (catalogue : Catalogue) (defined : List String) (aliases : AliasCache) :
    references? catalogue defined aliases u = some (references catalogue defined aliases u) := by
  rw [references?, references]
  cases hfirst : u.firstRequired with
  | none => rfl
  | some first =>
    have hmem := mem_parameters_of_firstRequired hfirst
    have hvalues := valueSpans?_eq (h first hmem).1 (h first hmem).2
    have hfiles : filesOf? catalogue u = some (filesOf catalogue u) := by
      rw [filesOf?, filesOf]
      cases (catalogue.commandSchemas u.baseName).head? with
      | none => rfl
      | some schema => exact fileReferences?_eq h schema
    simp only [hvalues, hfiles, Option.bind_eq_bind, Option.bind_some]
    split_ifs <;> rfl

/-- The fingerprint is made of the names of the definitions and of what they invoke. -/
theorem flatMap_names_definitions (m : Manuscript) :
    ((m.definitions.map (·.value)).flatMap fun d => d.name :: d.bodyNames) =
      m.currentFingerprint := by
  rw [Manuscript.currentFingerprint, Manuscript.definitionList, List.flatMap_map, List.flatMap_map]

theorem update?_eq (hm : ∀ d ∈ m.documents, d.Fits) (aliases : AliasCache) (base : List String) :
    update? aliases base m = some (aliases.update base m) := by
  cases base with
  | nil => rfl
  | cons key rest =>
    rw [update?, definitions?_eq hm, AliasCache.update, AliasCache.isStale]
    simp only [Option.bind_eq_bind, Option.bind_some, flatMap_names_definitions]
    rw [Manuscript.keepFingerprint, Manuscript.definitionFingerprint]
    split_ifs <;> simp_all

/-- Each command of a manuscript is resolved. -/
theorem resolve?_eq (hm : ∀ d ∈ m.documents, d.Fits) (hd : d ∈ m.documents) (hu : u ∈ d.commands)
    (catalogue : Catalogue) (aliases : AliasCache) :
    resolve? catalogue m aliases u = some (resolve catalogue m aliases u) := by
  have hparameters : ∀ p ∈ u.parameters,
      u.span.start ≤ p.offset ∧ p.offset + byteLength p.text < limit := by
    refine fun p hp => ⟨?_, (hm d hd).stop_lt hu hp⟩
    obtain ⟨hread, -⟩ := hm d hd
    rw [hread] at hu
    exact (Document.standsIn_of_parameter hu hp).2.1
  have hupdated : ∀ d ∈ (aliases.update Vocabulary.labelReferences m).1.documents, d.Fits := by
    rwa [AliasCache.documents_update]
  rw [resolve?, resolve]
  cases m.ensureReady with
  | error e => rfl
  | ok _ =>
    simp only [update?_eq hm, Option.bind_eq_bind, Option.bind_some]
    rw [definitions?_eq hupdated, Option.bind_some, references?_eq hparameters]
    rfl

end Found

end Machine

end TexLint
