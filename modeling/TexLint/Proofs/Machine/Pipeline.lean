import TexLint.Proofs.Machine.Imports
import TexLint.Proofs.Machine.References
import TexLint.Check.IndexProgram

/-!
# All that is asked of a manuscript

A machine that counts in words of 32 bits and slices texts by bytes can be asked everything about a
manuscript, whatever its documents hold.

## The model

* `indexPrograms?` follows `Manuscript.indexPrograms`.
* `Answers` lists the questions, with the answers that a machine gives.

## What is proved

* `answers`: if the documents are shorter than the words allow, and the catalogue has been built by
  its operations, no operation of the machine fails, and its answers are right.
-/

namespace TexLint

namespace Machine

/-- The programs to run, each once. -/
def indexPrograms? (m : Manuscript) (hasPerl : Bool) :
    Option (Except ManuscriptError (List IndexProgram)) :=
  match m.root with
  | .error e => return .error e
  | .ok _ => do
    let imports ← packageImports? m
    let included := distinct (imports.map (·.value.name))
    let options := (imports.filter fun i =>
      Vocabulary.indexPackages.contains i.value.name ||
        Vocabulary.glossaryPackages.contains i.value.name).flatMap (·.value.options.keys)
    let index : Option IndexProgram :=
      if Vocabulary.indexPackages.any included.contains then
        some (if options.contains "xindy" then .xindy else .makeindex)
      else none
    let glossary : Option IndexProgram :=
      if included.contains "glossaries" then
        some (if hasPerl then .makeglossaries else .makeglossariesLite)
      else if included.contains "glossaries-extra" && options.contains "record" then some .bib2gls
      else none
    return .ok (distinct (index.toList ++ glossary.toList ++ m.requestedProgram?.toList))

theorem indexPrograms?_eq {m : Manuscript} (hm : ∀ d ∈ m.documents, d.Fits) (hasPerl : Bool) :
    indexPrograms? m hasPerl = some (m.indexPrograms hasPerl) := by
  rw [indexPrograms?, Manuscript.indexPrograms, packageImports?_eq hm]
  cases m.root with
  | error e => rfl
  | ok _ => rfl

/-- A machine has an answer to every question about a manuscript, and it is the right one. -/
structure Answers (k : Knowledge) (m : Manuscript) : Prop where
  /-- The documents are read from their texts, and all that they hold stands in their texts. -/
  documents : ∀ d ∈ m.documents, read? d.path d.text = some d ∧ d.InRange
  /-- The imports are found. -/
  imports : packageImports? m = some m.packageImports
  /-- The definitions are found. -/
  definitions : definitions? m = some m.definitions
  /-- Each command is resolved, whatever aliases are known. -/
  references : ∀ u ∈ m.commands, ∀ aliases,
    resolve? k.catalogue m aliases u.value = some (resolve k.catalogue m aliases u.value)
  /-- The problems are found, in all documents or in one. -/
  problems : ∀ settings only, analyze? k settings m only = some (k.analyze settings m only)
  /-- Each package is imported or refused, among them those that the problems name. -/
  fixes : ∀ p : Package, fix? p k.graph m = some (p.fix k.graph m)
  /-- Edits are made, in any text and at any offset. -/
  edits : ∀ (edit : TextEdit) (source : Text), makeEdit? edit source = some (edit.apply source)
  /-- The index programs are chosen. -/
  programs : ∀ hasPerl, indexPrograms? m hasPerl = some (m.indexPrograms hasPerl)

/-- Whatever the documents of a manuscript hold: if they have been read from texts that fit, and the
catalogue has been built by its operations, every operation of the machine succeeds. -/
theorem answers {k : Knowledge} {m : Manuscript} (hcatalogue : k.catalogue.Built)
    (hm : ∀ d ∈ m.documents, d.Fits) : Answers k m where
  documents d hd := by
    obtain ⟨hread, hlimit⟩ := hm d hd
    constructor
    · rw [read?_eq d.path hlimit, ← hread]
    · rw [hread]
      exact inRange_read d.path d.text
  imports := packageImports?_eq hm
  definitions := definitions?_eq hm
  references u hu aliases := by
    obtain ⟨d, hd, hmem⟩ := exists_document_of_mem_commands hu
    exact resolve?_eq hm hd hmem k.catalogue aliases
  problems := analyze?_eq hcatalogue hm
  fixes p := fix?_eq hm p k.graph
  edits := makeEdit?_eq
  programs := indexPrograms?_eq hm

/-- A beginning and a reference that the source cuts off, with characters of two bytes in front of
their names and in them. -/
theorem answers_cut_off :
    let text := "\\begin[é]\x7bälign\\ref\x7bü,,b".toList
    let d := Document.read "a.tex" text
    let m := Manuscript.ofDocuments [d]
    Catalogue.builtin.Built ∧ (∀ d ∈ m.documents, d.Fits) ∧ Answers ⟨.builtin, .builtin⟩ m ∧
      read? "a.tex" text = some d ∧ d.environments.map (·.nameSpan) = [⟨11, 27⟩] ∧
        d.commands.map (·.nameSpan) = [⟨17, 21⟩] ∧ d.errors.length = 4 := by
  intro text d m
  have hm : ∀ d ∈ m.documents, d.Fits := by decide +kernel
  have hanswers : Answers ⟨.builtin, .builtin⟩ m := answers .builtin hm
  have hread := (hanswers.documents d (List.mem_singleton_self d)).1
  exact ⟨.builtin, hm, hanswers, hread, by decide +kernel⟩

end Machine

end TexLint
