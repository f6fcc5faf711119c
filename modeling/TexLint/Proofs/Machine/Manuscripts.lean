import TexLint.Proofs.Machine.Documents
import TexLint.Proofs.Check.ImportLine

/-!
# Questions about a manuscript

What a machine does to find the imports, the definitions and the defined environments of a
manuscript: it slices names out of the interiors of parameters.

## The model

* `packageImports?`, `definitions?`, `definedEnvironments?` follow the functions of the same names.
* `Document.Fits`: a document has been read from a text that fits.

## What is proved

* `packageImports?_eq`, `definitions?_eq`, `definedEnvironments?_eq`: in documents that fit, the
  imports, the definitions and the environments are found.
-/

namespace TexLint

open SyntaxTree

/-- A document that has been read from a text whose length fits in a word. -/
def Document.Fits (d : Document) : Prop :=
  d = .read d.path d.text ∧ byteLength d.text < Machine.limit

instance (d : Document) : Decidable d.Fits := inferInstanceAs (Decidable (_ ∧ _))

/-- In a document that fits, the ends of the parameters fit. -/
theorem Document.Fits.stop_lt {d : Document} (h : d.Fits) {u : CommandUsage} (hu : u ∈ d.commands)
    {p : Parameter} (hp : p ∈ u.parameters) : p.offset + byteLength p.text < Machine.limit := by
  obtain ⟨hread, hlimit⟩ := h
  rw [hread] at hu
  have hle := (standsIn_of_parameter hu hp).1.le.2
  rw [Nat.zero_add] at hle
  exact Nat.lt_of_le_of_lt hle hlimit

namespace Machine

/-! ### Imports -/

/-- What a function finds in the documents, in order. -/
def collect? {α : Type} (m : Manuscript) (f : Document → Option (List α)) :
    Option (List (Located α)) := do
  let found ← m.documents.zipIdx.mapM fun (d, position) => return (← f d).map (⟨position, ·⟩)
  return found.flatten

/-- The name that a piece of a text gives, if there is more to it than whitespace. -/
def name? (text : Text) (s : Span) : Option (Option String) := do
  let name := trim (← slice? text s)
  return if name.isEmpty then none else some (String.ofList name)

/-- The names of packages in a brace group. -/
def packageNames? (group : Parameter) : Option (List String) := do
  let interior ← stripGroup? group.text
  (← split? .parameter interior).filterMapM (name? interior)

/-- The imports that a command makes. -/
def imports? (u : CommandUsage) : Option (List PackageImport) :=
  if Vocabulary.packageImports.contains u.name then
    match u.firstRequired with
    | some group => do
      let options := optionMap u.optionalParameters
      return (← packageNames? group).map (⟨·, options, u.index⟩)
    | none => return []
  else return []

/-- All imports. -/
def packageImports? (m : Manuscript) : Option (List (Located PackageImport)) :=
  collect? m fun d => return (← d.commands.mapM imports?).flatten

/-- The names of the imported packages. -/
def includedPackages? (m : Manuscript) : Option (List String) :=
  return distinct ((← packageImports? m).map (·.value.name))

/-! ### Definitions -/

/-- The definition that a command of a document makes, if it makes one. -/
def definition? (d : Document) (u : CommandUsage) : Option (Option Definition) :=
  if Vocabulary.definesCommand u.name then
    match u.firstRequired with
    | some group => do
      let name := trim (← stripGroup? group.text)
      if name.head? = some '\\' then
        let span ← rangeAt? group.offset (byteLength group.text)
        return some
          { definer := u
            name := String.ofList name
            nameSpan := span
            body := (d.inside u).filter (!span.contains ·.span) }
      else return none
    | none => return d.gluedDefinition? u
  else return none

/-- All definitions of commands. -/
def definitions? (m : Manuscript) : Option (List (Located Definition)) :=
  collect? m fun d => d.commands.filterMapM (definition? d)

/-- The environment that a command defines, if its first brace group names one. -/
def definedEnvironment? (u : CommandUsage) : Option (Option String) :=
  match u.firstRequired with
  | none => return none
  | some group => do
    let name := trim (← stripGroup? group.text)
    return if name.isEmpty then none else some (String.ofList name)

/-- The environments that the manuscript defines itself. -/
def definedEnvironments? (m : Manuscript) : Option (List String) := do
  let definers := m.commands.filter (Vocabulary.definesEnvironment ·.value.name)
  return distinct (← definers.filterMapM (definedEnvironment? ·.value))

/-! ### What is found -/

section Found

variable {m : Manuscript} {d : Document} {u : CommandUsage} {p : Parameter}

theorem collect?_eq {α : Type} {f : Document → Option (List α)} {g : Document → List α}
    (h : ∀ d ∈ m.documents, f d = some (g d)) : collect? m f = some (m.collect g) := by
  have hfound : (m.documents.zipIdx.mapM fun (d, position) =>
      return (← f d).map (Located.mk position)) =
        some (m.documents.zipIdx.map fun (d, position) => (g d).map (Located.mk position)) :=
    mapM_eq fun x hx => by
      show (f x.1).bind _ = _
      rw [h x.1 (List.fst_mem_of_mem_zipIdx hx)]
      rfl
  rw [collect?, hfound, Manuscript.collect, List.mapIdx_eq_zipIdx_map]
  rfl

theorem mem_parameters_of_firstRequired (h : u.firstRequired = some p) : p ∈ u.parameters :=
  List.mem_of_find?_eq_some h

theorem stripGroup?_of_mem (hd : d.Fits) (hu : u ∈ d.commands) (hp : p ∈ u.parameters) :
    stripGroup? p.text = some p.interior := by
  have hlt := hd.stop_lt hu hp
  exact stripGroup?_eq (by omega)

theorem packageNames?_eq (hd : d.Fits) (hu : u ∈ d.commands) (hp : p ∈ u.parameters) :
    packageNames? p = some (packageNames p) := by
  have hlt := hd.stop_lt hu hp
  have hle : _ + byteLength p.interior ≤ byteLength p.text := byteLength_stripGroup_le p.text
  have hnames : ((split .parameter p.interior).map (·.span)).filterMapM (name? p.interior) =
      some (packageNames p) := by
    refine filterMapM_map_eq fun v hv => ?_
    rw [name?, (standsIn_split _ _ v hv).slice?]
    rfl
  rw [packageNames?, stripGroup?_of_mem hd hu hp]
  show (split? _ _).bind _ = _
  rw [split?_eq (by omega)]
  exact hnames

theorem imports?_eq (hd : d.Fits) (hu : u ∈ d.commands) : imports? u = some u.imports := by
  rw [imports?, CommandUsage.imports]
  split
  · cases hgroup : u.firstRequired with
    | none => rfl
    | some group =>
      simp only [packageNames?_eq hd hu (mem_parameters_of_firstRequired hgroup)]
      rfl
  · rfl

theorem packageImports?_eq (hm : ∀ d ∈ m.documents, d.Fits) :
    packageImports? m = some m.packageImports := by
  refine collect?_eq fun d hd => ?_
  rw [mapM_eq fun u hu => imports?_eq (hm d hd) hu, List.flatMap_def]
  rfl

theorem includedPackages?_eq (hm : ∀ d ∈ m.documents, d.Fits) :
    includedPackages? m = some m.includedPackages := by
  rw [includedPackages?, packageImports?_eq hm]
  rfl

theorem definition?_eq (hd : d.Fits) (hu : u ∈ d.commands) :
    definition? d u = some (d.definition? u) := by
  rw [definition?, Document.definition?]
  split
  · cases hgroup : u.firstRequired with
    | none => rfl
    | some group =>
      have hmem := mem_parameters_of_firstRequired hgroup
      simp only [stripGroup?_of_mem hd hu hmem, rangeAt?_eq (hd.stop_lt hu hmem),
        Document.bracedDefinition?, Option.bind_eq_bind, Option.bind_some]
      split <;> rfl
  · rfl

theorem definitions?_eq (hm : ∀ d ∈ m.documents, d.Fits) :
    definitions? m = some m.definitions :=
  collect?_eq fun d hd => filterMapM_eq fun _ hu => definition?_eq (hm d hd) hu

/-- A command of a manuscript is one of a document. -/
theorem exists_document_of_mem_commands {u : Located CommandUsage} (hu : u ∈ m.commands) :
    ∃ d ∈ m.documents, u.value ∈ d.commands := by
  obtain ⟨d, hd, hmem⟩ := Manuscript.mem_collect_iff.mp hu
  exact ⟨d, List.mem_of_getElem? hd, hmem⟩

theorem definedEnvironment?_eq (hd : d.Fits) (hu : u ∈ d.commands) :
    definedEnvironment? u = some (u.firstRequired.bind fun group =>
      let name := trim group.interior
      if name.isEmpty then none else some (String.ofList name)) := by
  cases hgroup : u.firstRequired with
  | none => simp [definedEnvironment?, hgroup]
  | some group =>
    have hinterior := stripGroup?_of_mem hd hu (mem_parameters_of_firstRequired hgroup)
    simp [definedEnvironment?, hgroup, hinterior]

theorem definedEnvironments?_eq (hm : ∀ d ∈ m.documents, d.Fits) :
    definedEnvironments? m = some m.definedEnvironments := by
  let definers := m.commands.filter (Vocabulary.definesEnvironment ·.value.name)
  have hfound : definers.filterMapM (definedEnvironment? ·.value) = some _ :=
    filterMapM_eq fun u hu => by
      obtain ⟨d, hd, hmem⟩ := exists_document_of_mem_commands (List.mem_of_mem_filter hu)
      exact definedEnvironment?_eq (hm d hd) hmem
  rw [definedEnvironments?, hfound]
  rfl

end Found

end Machine

end TexLint
