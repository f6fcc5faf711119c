import TexLint.Check.IndexProgram
import Mathlib.Data.List.Forall2

/-!
# What the options of imports have to do with index programs

Index packages and glossary packages are imported with options. The options of both are looked
up in one list, so an option of one kind of package has a say in the program for the other.

## The model

* `Carries` says that a package out of a list is imported with an option.
* `SameBut` relates manuscripts that differ at most in the options with which some packages are
  imported. It asks for nothing else than what index programs are found by.

## What is proved

* `mem_indexPackageOptions_iff`, `mem_indexPrograms_iff`: which options are looked at, and where
  a program comes from.
* `SameBut.includedPackages_eq`, `SameBut.carries_iff`: what such manuscripts have in common.
* `indexPrograms_options`: with other options for glossary packages the index programs are the
  same exactly if none of these options is an `xindy` that counts; and likewise for the glossary
  program, index packages and `record`.
-/

namespace TexLint

/-- Whether a program makes indexes. -/
def IndexProgram.isForIndex : IndexProgram → Bool
  | makeindex | xindy | truexindy => true
  | makeglossaries | makeglossariesLite | bib2gls => false

namespace Manuscript

open Vocabulary (indexPackages glossaryPackages)

variable {m m' : Manuscript} {packages others : List String} {option : String} {hasPerl : Bool}
  {program : IndexProgram}

/-- One of the packages is imported. -/
def Includes (m : Manuscript) (packages : List String) : Prop :=
  ∃ name ∈ packages, name ∈ m.includedPackages

/-- One of the packages is imported with an option. -/
def Carries (m : Manuscript) (packages : List String) (option : String) : Prop :=
  ∃ i ∈ m.packageImports, i.value.name ∈ packages ∧ option ∈ i.value.options.keys

/-- The same package is imported, with the same options unless it is one of the given packages. -/
def SameImport (packages : List String) (i i' : Located PackageImport) : Prop :=
  i.value.name = i'.value.name ∧ (i.value.name ∉ packages → i.value.options = i'.value.options)

/-- The manuscripts differ at most in the options with which the packages are imported. -/
structure SameBut (packages : List String) (m m' : Manuscript) : Prop where
  /-- There are as many documents. -/
  documents : m.documents.length = m'.documents.length
  /-- The imports are the same one by one. -/
  imports : List.Forall₂ (SameImport packages) m.packageImports m'.packageImports
  /-- The index is started with the same options. -/
  makeIndex : m.makeIndexOptions = m'.makeIndexOptions

instance : Decidable (m.Includes packages) :=
  inferInstanceAs (Decidable (∃ name ∈ packages, name ∈ m.includedPackages))

instance : Decidable (m.Carries packages option) :=
  inferInstanceAs (Decidable
    (∃ i ∈ m.packageImports, i.value.name ∈ packages ∧ option ∈ i.value.options.keys))

instance : DecidableRel (SameImport packages) := fun i i' =>
  inferInstanceAs (Decidable (i.value.name = i'.value.name ∧
    (i.value.name ∉ packages → i.value.options = i'.value.options)))

instance : Decidable (SameBut packages m m') :=
  decidable_of_iff (m.documents.length = m'.documents.length ∧
      List.Forall₂ (SameImport packages) m.packageImports m'.packageImports ∧
      m.makeIndexOptions = m'.makeIndexOptions)
    ⟨fun ⟨documents, imports, makeIndex⟩ => ⟨documents, imports, makeIndex⟩,
      fun ⟨documents, imports, makeIndex⟩ => ⟨documents, imports, makeIndex⟩⟩

/-! ### Which options are looked at -/

/-- The options of both kinds of packages are in one list. -/
theorem mem_indexPackageOptions_iff :
    option ∈ m.indexPackageOptions ↔
      m.Carries indexPackages option ∨ m.Carries glossaryPackages option := by
  simp only [indexPackageOptions, Carries, List.contains_iff_mem, List.mem_flatMap,
    List.mem_filter, Bool.or_eq_true]
  constructor
  · rintro ⟨i, ⟨hi, hname | hname⟩, hoption⟩
    · exact .inl ⟨i, hi, hname, hoption⟩
    · exact .inr ⟨i, hi, hname, hoption⟩
  · rintro (⟨i, hi, hname, hoption⟩ | ⟨i, hi, hname, hoption⟩)
    · exact ⟨i, ⟨hi, .inl hname⟩, hoption⟩
    · exact ⟨i, ⟨hi, .inr hname⟩, hoption⟩

/-- An index package asks for one of two programs. -/
theorem packageIndexProgram?_eq_some_iff :
    m.packageIndexProgram? = some program ↔ m.Includes indexPackages ∧
      (program = .xindy ∧ "xindy" ∈ m.indexPackageOptions ∨
        program = .makeindex ∧ "xindy" ∉ m.indexPackageOptions) := by
  have hincludes : indexPackages.any m.includedPackages.contains = true ↔
      m.Includes indexPackages := by
    simp only [List.any_eq_true, List.contains_iff_mem, Includes]
  rw [packageIndexProgram?, ← hincludes]
  by_cases hincluded : indexPackages.any m.includedPackages.contains = true
  · by_cases hxindy : "xindy" ∈ m.indexPackageOptions
    · simp [hincluded, hxindy, eq_comm]
    · simp [hincluded, hxindy, eq_comm]
  · simp [hincluded]

/-- If an index package is imported, there is a program for it. -/
theorem exists_packageIndexProgram? (h : m.Includes indexPackages) :
    ∃ program, m.packageIndexProgram? = some program ∧ program.isForIndex = true ∧
      (program = .xindy ↔ "xindy" ∈ m.indexPackageOptions) := by
  by_cases hxindy : "xindy" ∈ m.indexPackageOptions
  · exact ⟨.xindy, packageIndexProgram?_eq_some_iff.mpr ⟨h, .inl ⟨rfl, hxindy⟩⟩, rfl,
      iff_of_true rfl hxindy⟩
  · exact ⟨.makeindex, packageIndexProgram?_eq_some_iff.mpr ⟨h, .inr ⟨rfl, hxindy⟩⟩, rfl,
      iff_of_false nofun hxindy⟩

/-- The glossary program for databases needs the option `record`. -/
theorem glossaryProgram?_eq_bib2gls_iff :
    m.glossaryProgram? hasPerl = some .bib2gls ↔ "glossaries" ∉ m.includedPackages ∧
      "glossaries-extra" ∈ m.includedPackages ∧ "record" ∈ m.indexPackageOptions := by
  rw [glossaryProgram?]
  by_cases hglossaries : "glossaries" ∈ m.includedPackages
  · cases hasPerl <;> simp [hglossaries]
  · simp [hglossaries]

/-- A glossary package asks for a program that makes no index. -/
theorem isForIndex_of_glossaryProgram? (h : m.glossaryProgram? hasPerl = some program) :
    program.isForIndex = false := by
  unfold glossaryProgram? at h
  split at h
  · cases h
    cases hasPerl <;> rfl
  · split at h
    · cases h
      rfl
    · cases h

/-- The start of the index asks for a program that makes indexes. -/
theorem isForIndex_of_requestedProgram? (h : m.requestedProgram? = some program) :
    program.isForIndex = true := by
  unfold requestedProgram? at h
  split at h
  · cases h
    rfl
  · split at h
    · cases h
      rfl
    · split at h
      · cases h
        rfl
      · cases h

/-- Where the index is started without options, no program is asked for there. -/
theorem requestedProgram?_of_empty (h : m.makeIndexOptions = .empty) :
    m.requestedProgram? = none := by
  have hnone (name : String) : m.requestsProgram name = false := by
    rw [requestsProgram, h]
    rfl
  simp [requestedProgram?, hnone]

/-! ### Where a program comes from -/

/-- Without a document there is no answer. -/
theorem indexPrograms_of_empty (h : m.documents = []) :
    m.indexPrograms hasPerl = .error .noRoot := by
  rw [indexPrograms, root, h]
  rfl

/-- With a document there is an answer, and a program is in it if the import of a package or the
start of the index asks for it. -/
theorem exists_indexPrograms (h : m.documents ≠ []) (hasPerl : Bool) :
    ∃ programs, m.indexPrograms hasPerl = .ok programs ∧ ∀ program, program ∈ programs ↔
      m.packageIndexProgram? = some program ∨ m.glossaryProgram? hasPerl = some program ∨
        m.requestedProgram? = some program := by
  obtain ⟨d, documents, hdocuments⟩ := List.exists_cons_of_ne_nil h
  have hroot : m.root = .ok d := by
    rw [root, hdocuments]
  refine ⟨distinct (m.packageIndexProgram?.toList ++ (m.glossaryProgram? hasPerl).toList ++
    m.requestedProgram?.toList), ?_, fun program => ?_⟩
  · rw [indexPrograms, hroot]
    rfl
  · rw [mem_distinct, List.mem_append, List.mem_append, Option.mem_toList, Option.mem_toList,
      Option.mem_toList, or_assoc]

/-! ### Manuscripts with other options -/

theorem SameBut.symm (h : SameBut packages m m') : SameBut packages m' m where
  documents := h.documents.symm
  imports := by
    refine (h.imports.imp ?_).flip
    rintro i i' ⟨hname, hoptions⟩
    exact ⟨hname.symm, fun hnot => (hoptions (hname ▸ hnot)).symm⟩
  makeIndex := h.makeIndex.symm

/-- The same packages are imported. -/
theorem SameBut.includedPackages_eq (h : SameBut packages m m') :
    m.includedPackages = m'.includedPackages := by
  have hnames : m.packageImports.map (·.value.name) = m'.packageImports.map (·.value.name) := by
    rw [← List.forall₂_eq_eq_eq, List.forall₂_map_left_iff, List.forall₂_map_right_iff]
    exact h.imports.imp fun _ _ same => same.1
  rw [includedPackages, includedPackages, hnames]

theorem SameBut.includes_iff (h : SameBut packages m m') :
    m.Includes others ↔ m'.Includes others := by
  rw [Includes, Includes, h.includedPackages_eq]

/-- Other packages are imported with the options that they have had. -/
theorem SameBut.carries_iff (h : SameBut packages m m') (hothers : others.Disjoint packages) :
    m.Carries others option ↔ m'.Carries others option := by
  have hcarries {m m' : Manuscript} (h : SameBut packages m m') (hm : m.Carries others option) :
      m'.Carries others option := by
    obtain ⟨i, hi, hname, hoption⟩ := hm
    obtain ⟨hlength, hget⟩ := List.forall₂_iff_get.mp h.imports
    obtain ⟨n, rfl⟩ := List.mem_iff_get.mp hi
    obtain ⟨hsame, hoptions⟩ := hget n n.isLt (hlength ▸ n.isLt)
    refine ⟨_, List.get_mem _ _, hsame ▸ hname, ?_⟩
    rw [← hoptions (hothers hname)]
    exact hoption
  exact ⟨hcarries h, hcarries h.symm⟩

theorem SameBut.requestedProgram?_eq (h : SameBut packages m m') :
    m.requestedProgram? = m'.requestedProgram? := by
  have hrequests (name : String) : m.requestsProgram name = m'.requestsProgram name := by
    rw [requestsProgram, requestsProgram, h.makeIndex]
  simp only [requestedProgram?, hrequests]

/-- No package is of both kinds. -/
theorem not_mem_glossaryPackages {name : String} (h : name ∈ indexPackages) :
    name ∉ glossaryPackages := by
  have hall : ∀ name ∈ indexPackages, name ∉ glossaryPackages := by decide +kernel
  exact hall name h

theorem or_iff_or_iff {p q r : Prop} : (p ∨ q ↔ p ∨ r) ↔ p ∨ (q ↔ r) := by
  by_cases hp : p <;> simp [hp]

/-- Two programs that the import of a package asks for cannot be told apart only if they are the
same, whatever else is asked for. -/
theorem eq_of_same_programs {first second : IndexProgram} {requested : Option IndexProgram}
    (hfirst : first = second ∨ requested = some first)
    (hsecond : second = first ∨ requested = some second) : first = second := by
  rcases hfirst with h | hfirst
  · exact h
  · rcases hsecond with h | hsecond
    · exact h.symm
    · exact Option.some.inj (hfirst.symm.trans hsecond)

section Answers

variable {programs programs' : List IndexProgram}
  (hmem : ∀ program, program ∈ programs ↔ m.packageIndexProgram? = some program ∨
    m.glossaryProgram? hasPerl = some program ∨ m.requestedProgram? = some program)
  (hmem' : ∀ program, program ∈ programs' ↔ m'.packageIndexProgram? = some program ∨
    m'.glossaryProgram? hasPerl = some program ∨ m'.requestedProgram? = some program)

include hmem

/-- Glossaries have no say in which programs make indexes. -/
theorem mem_iff_of_isForIndex (h : program.isForIndex = true) :
    program ∈ programs ↔
      m.packageIndexProgram? = some program ∨ m.requestedProgram? = some program := by
  have hglossary : m.glossaryProgram? hasPerl ≠ some program := by
    intro hprogram
    rw [isForIndex_of_glossaryProgram? hprogram] at h
    cases h
  rw [hmem, or_iff_right (a := m.glossaryProgram? hasPerl = some program) hglossary]

theorem bib2gls_mem_iff :
    .bib2gls ∈ programs ↔ "glossaries" ∉ m.includedPackages ∧
      "glossaries-extra" ∈ m.includedPackages ∧ "record" ∈ m.indexPackageOptions := by
  have hpackage : m.packageIndexProgram? ≠ some .bib2gls := by
    rw [Ne, packageIndexProgram?_eq_some_iff]
    simp
  have hrequested : m.requestedProgram? ≠ some .bib2gls := by
    intro h
    cases isForIndex_of_requestedProgram? h
  rw [hmem, or_iff_right hpackage, or_iff_left hrequested, glossaryProgram?_eq_bib2gls_iff]

/-- Where the index is started without options, an index package asks for one program. -/
theorem mem_iff_of_includes (hempty : m.makeIndexOptions = .empty)
    (hincludes : m.Includes indexPackages) (h : program.isForIndex = true) :
    program ∈ programs ↔ program = .xindy ∧ "xindy" ∈ m.indexPackageOptions ∨
      program = .makeindex ∧ "xindy" ∉ m.indexPackageOptions := by
  rw [mem_iff_of_isForIndex hmem h, requestedProgram?_of_empty hempty,
    packageIndexProgram?_eq_some_iff]
  simp [hincludes]

include hmem'

/-- Where the same program is asked for at the start of the index, the programs for indexes are
the same if it makes no difference which program an index package asks for. -/
theorem same_programs_iff (hincludes : m.Includes indexPackages ↔ m'.Includes indexPackages)
    (hrequested : m.requestedProgram? = m'.requestedProgram?) :
    (∀ program : IndexProgram, program.isForIndex = true →
      (program ∈ programs ↔ program ∈ programs')) ↔
    (m.Includes indexPackages →
      ("xindy" ∈ m.indexPackageOptions ↔ "xindy" ∈ m'.indexPackageOptions)) := by
  constructor
  · intro hsame hm
    obtain ⟨first, hfirst, hindex, hxindy⟩ := exists_packageIndexProgram? hm
    obtain ⟨second, hsecond, hindex', hxindy'⟩ := exists_packageIndexProgram? (hincludes.mp hm)
    have hleft := (hsame first hindex).mp ((mem_iff_of_isForIndex hmem hindex).mpr (.inl hfirst))
    have hright := (hsame second hindex').mpr
      ((mem_iff_of_isForIndex hmem' hindex').mpr (.inl hsecond))
    rw [mem_iff_of_isForIndex hmem' hindex, hsecond, Option.some.injEq, ← hrequested] at hleft
    rw [mem_iff_of_isForIndex hmem hindex', hfirst, Option.some.injEq] at hright
    have heq : first = second :=
      eq_of_same_programs (hleft.imp_left Eq.symm) (hright.imp_left Eq.symm)
    rw [← hxindy, ← hxindy', heq]
  · intro hoptions program hprogram
    rw [mem_iff_of_isForIndex hmem hprogram, mem_iff_of_isForIndex hmem' hprogram, hrequested,
      packageIndexProgram?_eq_some_iff, packageIndexProgram?_eq_some_iff, ← hincludes]
    refine or_congr_left (and_congr_right fun hm => ?_)
    rw [hoptions hm]

end Answers

/-- What the options of imports have to do with index programs. Where the index is started without
options, an index package asks for `xindy` exactly if an index package or a glossary package is
imported with that option. The program for glossaries of databases is run exactly if
`glossaries-extra` is imported, `glossaries` is not, and a package of either kind has the option
`record`. So other options for glossary packages leave the index programs alone exactly if no
index package is imported, or one that has `xindy` itself, or if that option has not changed for
glossary packages; and likewise for index packages and `record`. -/
theorem indexPrograms_options (m : Manuscript) (hasPerl : Bool) :
    (m.documents = [] → m.indexPrograms hasPerl = .error .noRoot) ∧
    (m.documents ≠ [] → ∃ programs, m.indexPrograms hasPerl = .ok programs ∧
      (m.makeIndexOptions = .empty → m.Includes indexPackages →
        .truexindy ∉ programs ∧ (.makeindex ∈ programs ↔ .xindy ∉ programs) ∧
        (.xindy ∈ programs ↔
          m.Carries indexPackages "xindy" ∨ m.Carries glossaryPackages "xindy")) ∧
      (.bib2gls ∈ programs ↔ "glossaries" ∉ m.includedPackages ∧
        "glossaries-extra" ∈ m.includedPackages ∧
        (m.Carries indexPackages "record" ∨ m.Carries glossaryPackages "record")) ∧
      (∀ m', SameBut glossaryPackages m m' → ∃ programs',
        m'.indexPrograms hasPerl = .ok programs' ∧
        ((∀ program : IndexProgram, program.isForIndex = true →
            (program ∈ programs ↔ program ∈ programs')) ↔
          (m.Includes indexPackages → m.Carries indexPackages "xindy" ∨
            (m.Carries glossaryPackages "xindy" ↔ m'.Carries glossaryPackages "xindy")))) ∧
      (∀ m', SameBut indexPackages m m' → ∃ programs',
        m'.indexPrograms hasPerl = .ok programs' ∧
        ((IndexProgram.bib2gls ∈ programs ↔ .bib2gls ∈ programs') ↔
          ("glossaries" ∉ m.includedPackages → "glossaries-extra" ∈ m.includedPackages →
            m.Carries glossaryPackages "record" ∨
            (m.Carries indexPackages "record" ↔ m'.Carries indexPackages "record"))))) := by
  refine ⟨indexPrograms_of_empty, fun hm => ?_⟩
  have hanswer (m' : Manuscript) (hlength : m.documents.length = m'.documents.length) :=
    exists_indexPrograms (m := m') (List.ne_nil_of_length_pos
      (hlength ▸ List.length_pos_iff.mpr hm)) hasPerl
  obtain ⟨programs, hprograms, hmem⟩ := hanswer m rfl
  refine ⟨programs, hprograms, fun hempty hincludes => ?_, ?_, fun m' hsame => ?_,
    fun m' hsame => ?_⟩
  · have hchosen (program : IndexProgram) (h : program.isForIndex = true) :=
      mem_iff_of_includes hmem hempty hincludes h
    rw [hchosen .truexindy rfl, hchosen .makeindex rfl, hchosen .xindy rfl,
      ← mem_indexPackageOptions_iff]
    simp
  · rw [bib2gls_mem_iff hmem, mem_indexPackageOptions_iff]
  · obtain ⟨programs', hprograms', hmem'⟩ := hanswer m' hsame.documents
    refine ⟨programs', hprograms', ?_⟩
    have hindex : m.Carries indexPackages "xindy" ↔ m'.Carries indexPackages "xindy" :=
      hsame.carries_iff fun _ => not_mem_glossaryPackages
    rw [same_programs_iff hmem hmem' hsame.includes_iff hsame.requestedProgram?_eq,
      mem_indexPackageOptions_iff, mem_indexPackageOptions_iff, ← hindex, or_iff_or_iff]
  · obtain ⟨programs', hprograms', hmem'⟩ := hanswer m' hsame.documents
    refine ⟨programs', hprograms', ?_⟩
    have hglossary : m.Carries glossaryPackages "record" ↔ m'.Carries glossaryPackages "record" :=
      hsame.carries_iff fun _ hglossary hindex => not_mem_glossaryPackages hindex hglossary
    rw [bib2gls_mem_iff hmem, bib2gls_mem_iff hmem', ← hsame.includedPackages_eq,
      mem_indexPackageOptions_iff, mem_indexPackageOptions_iff, ← hglossary, or_comm,
      or_comm (a := m'.Carries indexPackages "record"), and_congr_right_iff, and_congr_right_iff,
      or_iff_or_iff]

/-- An index package that has the option `xindy` itself is not disturbed by a glossary package that
gets it too. -/
theorem indexPrograms_options_own :
    let m := ofDocuments
      [.read "main.tex" "\\usepackage[xindy]\x7bindex\x7d\\usepackage\x7bglossaries\x7d".toList]
    let m' := ofDocuments
      [.read "main.tex"
        "\\usepackage[xindy]\x7bindex\x7d\\usepackage[xindy]\x7bglossaries\x7d".toList]
    m.documents ≠ [] ∧ m.Includes indexPackages ∧ SameBut glossaryPackages m m' ∧
      ∃ programs programs', m.indexPrograms true = .ok programs ∧
        m'.indexPrograms true = .ok programs' ∧ .xindy ∈ programs ∧
        ∀ program : IndexProgram, program.isForIndex = true →
          (program ∈ programs ↔ program ∈ programs') := by
  intro m m'
  have hm : m.documents ≠ [] := by decide +kernel
  have hincludes : m.Includes indexPackages := by decide +kernel
  have hsame : SameBut glossaryPackages m m' := by decide +kernel
  have hxindy : m.Carries indexPackages "xindy" := by decide +kernel
  obtain ⟨programs, hprograms, hchosen, -, hglossary, -⟩ := (indexPrograms_options m true).2 hm
  obtain ⟨programs', hprograms', hiff⟩ := hglossary m' hsame
  refine ⟨hm, hincludes, hsame, programs, programs', hprograms, hprograms', ?_, ?_⟩
  · exact ((hchosen (by decide +kernel) hincludes).2.2).mpr (.inl hxindy)
  · exact hiff.mpr fun _ => .inl hxindy

/-- The option `xindy` of a glossary package changes the program for an index package, and the
option `record` of an index package brings in a glossary program. -/
theorem indexPrograms_disturbed :
    let indexOf (options : String) := ofDocuments [.read "main.tex"
      ("\\usepackage\x7bindex\x7d\\usepackage" ++ options ++ "\x7bglossaries\x7d").toList]
    let glossaryOf (options : String) := ofDocuments [.read "main.tex"
      ("\\usepackage" ++ options ++ "\x7bindex\x7d\\usepackage\x7bglossaries-extra\x7d").toList]
    SameBut glossaryPackages (indexOf "") (indexOf "[xindy]") ∧
      (indexOf "").indexPrograms true = .ok [.makeindex, .makeglossaries] ∧
      (indexOf "[xindy]").indexPrograms true = .ok [.xindy, .makeglossaries] ∧
      ¬ (indexOf "[xindy]").Carries indexPackages "xindy" ∧
      SameBut indexPackages (glossaryOf "") (glossaryOf "[record]") ∧
      (glossaryOf "").indexPrograms true = .ok [.makeindex] ∧
      (glossaryOf "[record]").indexPrograms true = .ok [.makeindex, .bib2gls] := by
  intro indexOf glossaryOf
  refine ⟨?_, ?_, ?_, ?_, ?_, ?_, ?_⟩ <;> decide +kernel

end Manuscript

end TexLint
