import TexLint.Proofs.Check.Insertion
import TexLint.Proofs.Check.MissingImport

/-!
# Runs of fixes

Whoever follows the reports makes progress: each fix that is offered has something to do, and
when its import has been inserted, no report asks for the package again. So the reports can be
followed only so often.

## The model

* A `FixStep` analyses a manuscript, picks a fix that a report offers and applies it; after an
  insertion the root document is read anew. A `FixRun` is any number of steps.
* `FixRun.Inv` is what holds throughout a run: the root document has been read from a text, and
  that text has the lines of all imports that were inserted.

## What is proved

* `FixRun.inv`: the invariant holds after every run.
* `FixRun.progress`: no fix of a run is offered in vain, no package is asked for again once it
  has been inserted, and there are at most as many insertions as packages to import.
-/

namespace TexLint

namespace Catalogue

/-- The names of the packages that can be imported for what the catalogue knows. -/
def importable (c : Catalogue) : List String :=
  distinct ((c.packages.filter (!·.isKernel)).map (·.name))

theorem mem_importable {c : Catalogue} {p : Package} (hp : p ∈ c.packages)
    (hkernel : p.isKernel = false) : p.name ∈ c.importable := by
  rw [importable, mem_distinct]
  exact List.mem_map.mpr ⟨p, List.mem_filter.mpr ⟨hp, by simp [hkernel]⟩, rfl⟩

end Catalogue

namespace Knowledge

/-- A package that the check for missing imports offers to import. -/
def Offers (k : Knowledge) (m : Manuscript) (p : Package) : Prop :=
  ∃ settings only reports report, k.analyze settings m only = .ok reports ∧ report ∈ reports ∧
    p ∈ report.packages

variable {k : Knowledge} {m : Manuscript}

theorem of_mem_unsatisfied? {included : List String} {packages found : List Package}
    (h : k.unsatisfied? included packages = some found) {p : Package} (hp : p ∈ found) :
    p ∈ packages ∧ p.isKernel = false ∧ p.name ∉ included := by
  obtain ⟨rfl, -, hkernel, hsatisfied⟩ := unsatisfied?_eq_some_iff.mp h
  have hincluded := (Bool.or_eq_false_iff.mp (hsatisfied p hp)).1
  exact ⟨hp, hkernel p hp, fun hmem => by simp [hmem] at hincluded⟩

theorem spec_of_commandProblem? {included : List String} {i : Nat} {d : Document}
    {u : CommandUsage} {report : Problem} (h : k.commandProblem? included i d u = some report)
    {p : Package} (hp : p ∈ report.packages) :
    p ∈ k.catalogue.packages ∧ p.isKernel = false ∧ p.name ∉ included := by
  rw [commandProblem?] at h
  split at h
  · cases h
  · obtain ⟨packages, hpackages, rfl⟩ := Option.map_eq_some_iff.mp h
    obtain ⟨hmem, hspec⟩ := of_mem_unsatisfied? hpackages hp
    obtain ⟨s, hs, hdependency⟩ := List.mem_filterMap.mp (mem_distinct.mp hmem)
    exact ⟨Catalogue.mem_packages_of_command hs hdependency, hspec⟩

theorem spec_of_environmentProblem? {included defined : List String} {i : Nat}
    {e : EnvironmentUsage} {report : Problem}
    (h : k.environmentProblem? included defined i e = some report)
    {p : Package} (hp : p ∈ report.packages) :
    p ∈ k.catalogue.packages ∧ p.isKernel = false ∧ p.name ∉ included := by
  rw [environmentProblem?] at h
  split at h
  · cases h
  · obtain ⟨packages, hpackages, rfl⟩ := Option.map_eq_some_iff.mp h
    obtain ⟨hmem, hspec⟩ := of_mem_unsatisfied? hpackages hp
    obtain ⟨s, hs, hdependency⟩ := Option.bind_eq_some_iff.mp (Option.mem_toList.mp hmem)
    exact ⟨Catalogue.mem_packages_of_environment hs hdependency, hspec⟩

theorem eq_problems_of_analyze {settings : Settings} {only : Option Nat} {reports : List Problem}
    (h : k.analyze settings m only = .ok reports) :
    reports = [] ∨ ∃ scope, reports = k.problems m scope := by
  rw [analyze] at h
  split at h
  · cases hready : m.ensureReady with
    | error e =>
      rw [hready] at h
      cases h
    | ok _ =>
      rw [hready] at h
      cases h
      exact .inr ⟨_, rfl⟩
  · cases h
    exact .inl rfl

/-- What is offered is a package of the catalogue that has to be imported and is not. -/
theorem Offers.spec {p : Package} (h : k.Offers m p) :
    p ∈ k.catalogue.packages ∧ p.isKernel = false ∧ p.name ∉ m.includedPackages := by
  obtain ⟨settings, only, reports, report, hanalyze, hreport, hp⟩ := h
  rcases eq_problems_of_analyze hanalyze with rfl | ⟨scope, rfl⟩
  · cases hreport
  · rw [problems_eq, List.mem_append] at hreport
    rcases hreport with h | h
    · obtain ⟨i, d, -, -, u, -, hx⟩ := exists_of_mem_found h
      exact spec_of_commandProblem? hx hp
    · obtain ⟨i, d, -, -, e, -, hx⟩ := exists_of_mem_found h
      exact spec_of_environmentProblem? hx hp

end Knowledge

/-! ### Steps and runs -/

/-- The manuscript after a fix. If an import is inserted, the root document is read anew. -/
def Manuscript.afterFix (m : Manuscript) (root : Document) : FixOutcome → Manuscript
  | .inserted edit => m.replace edit.document (.read root.path (edit.apply root.text))
  | .alreadyIncluded | .conflict _ _ => m

/-- One fix that is offered and applied, with what comes of it. -/
structure FixStep (k : Knowledge) (m : Manuscript) (p : Package) (outcome : FixOutcome)
    (m' : Manuscript) : Prop where
  /-- A report offers to import the package. -/
  offered : k.Offers m p
  /-- The fix is applied, and the root document is read anew if its text changes. -/
  applied : ∃ root actions, m.root = .ok root ∧ p.fix k.graph m = .ok (outcome, actions) ∧
    m' = m.afterFix root outcome

/-- Any number of steps, with the package and the outcome of each. -/
inductive FixRun (k : Knowledge) (m : Manuscript) :
    List (Package × FixOutcome) → Manuscript → Prop where
  /-- Nothing has been done. -/
  | start : FixRun k m [] m
  /-- One more step is made. -/
  | step {steps : List (Package × FixOutcome)} {m' m'' : Manuscript} {p : Package}
      {outcome : FixOutcome} : FixRun k m steps m' → FixStep k m' p outcome m'' →
      FixRun k m (steps ++ [(p, outcome)]) m''

/-- The name of the package that a step inserts, if it inserts one. -/
def insertedName? : Package × FixOutcome → Option String
  | (p, .inserted _) => some p.name
  | (_, .alreadyIncluded) | (_, .conflict _ _) => none

/-- The names of the packages that were inserted, one for each insertion. -/
def insertedNames (steps : List (Package × FixOutcome)) : List String :=
  steps.filterMap insertedName?

namespace FixRun

variable {k : Knowledge} {m m' m'' : Manuscript} {steps : List (Package × FixOutcome)}
  {p : Package} {outcome : FixOutcome}

/-- What holds throughout a run: the root document has been read from a text that has the lines
of all imports that were inserted, no fix was in vain, and no package was inserted twice. -/
structure Inv (k : Knowledge) (steps : List (Package × FixOutcome)) (m : Manuscript) : Prop where
  /-- The text of the root document has the lines of the imports. -/
  lines : ∃ path text, m.root = .ok (.read path text) ∧ ∀ p edit, (p, .inserted edit) ∈ steps →
    p.Plain ∧ HasLine text p.importCommand.toList
  /-- Each fix had something to do. -/
  useful : ∀ s ∈ steps, s.2 ≠ .alreadyIncluded
  /-- No package was inserted twice. -/
  nodup : (insertedNames steps).Nodup
  /-- The packages are among those that can be imported. -/
  known : ∀ name ∈ insertedNames steps, name ∈ k.catalogue.importable

theorem Inv.start {path : String} {text : Text} (h : m.root = .ok (.read path text)) :
    Inv k [] m :=
  ⟨⟨path, text, h, by simp⟩, by simp, by simp [insertedNames], by simp [insertedNames]⟩

/-- What was inserted is imported. -/
theorem Inv.mem_includedPackages (h : Inv k steps m) {edit : TextEdit}
    (hp : (p, .inserted edit) ∈ steps) : p.name ∈ m.includedPackages := by
  obtain ⟨path, text, hroot, hlines⟩ := h.lines
  obtain ⟨hplain, hline⟩ := hlines p edit hp
  exact Manuscript.mem_includedPackages_of_hasLine (Manuscript.mem_documents_of_root hroot) hplain
    hline

theorem Inv.mem_includedPackages_of_name (h : Inv k steps m) {name : String}
    (hname : name ∈ insertedNames steps) : name ∈ m.includedPackages := by
  obtain ⟨⟨p, outcome⟩, hp, hinserted⟩ := List.mem_filterMap.mp hname
  cases outcome with
  | inserted edit =>
    cases hinserted
    exact h.mem_includedPackages hp
  | alreadyIncluded => cases hinserted
  | conflict => cases hinserted

theorem Inv.conflict (h : Inv k steps m) (package conflicting : String) :
    Inv k (steps ++ [(p, .conflict package conflicting)]) m := by
  have hnames : insertedNames (steps ++ [(p, .conflict package conflicting)]) =
      insertedNames steps := by
    simp [insertedNames, insertedName?]
  obtain ⟨path, text, hroot, hlines⟩ := h.lines
  refine ⟨⟨path, text, hroot, fun q edit hq => hlines q edit ?_⟩, fun s hs => ?_,
    hnames ▸ h.nodup, hnames ▸ h.known⟩
  · simpa using hq
  · rcases List.mem_append.mp hs with hs | hs
    · exact h.useful s hs
    · rw [List.mem_singleton.mp hs]
      exact FixOutcome.noConfusion

/-- An insertion keeps the invariant: the new line is there, and those that were there stay. -/
theorem Inv.insert (h : Inv k steps m) (hp : p.Plain) (hknown : p.name ∈ k.catalogue.importable)
    (hincluded : p.name ∉ m.includedPackages) {root : Document} (hroot : m.root = .ok root) :
    Inv k (steps ++ [(p, .inserted (root.importEdit p))])
      (m.afterFix root (.inserted (root.importEdit p))) := by
  have hnames : insertedNames (steps ++ [(p, .inserted (root.importEdit p))]) =
      insertedNames steps ++ [p.name] := by
    simp [insertedNames, insertedName?]
  obtain ⟨path, text, hread, hlines⟩ := h.lines
  cases hroot.symm.trans hread
  obtain ⟨before, behind, htext, hdocument, -, hinserts⟩ := Document.exists_insertion path text p
  refine ⟨⟨path, ((Document.read path text).importEdit p).apply text, ?_, fun q edit hq => ?_⟩,
    fun s hs => ?_, ?_, fun name hname => ?_⟩
  · rw [Manuscript.afterFix, hdocument]
    exact Manuscript.root_replace hroot _
  · rcases List.mem_append.mp hq with hq | hq
    · obtain ⟨hplain, hline⟩ := hlines q edit hq
      rw [htext] at hline
      have hline' := Package.newline_not_mem_importCommand hplain
      exact ⟨hplain, hinserts.hasLine_of_hasLine hline hline'⟩
    · cases List.mem_singleton.mp hq
      exact ⟨hp, hinserts.hasLine⟩
  · rcases List.mem_append.mp hs with hs | hs
    · exact h.useful s hs
    · rw [List.mem_singleton.mp hs]
      exact FixOutcome.noConfusion
  · rw [hnames, List.nodup_append]
    refine ⟨h.nodup, by simp, fun name hname other hother => ?_⟩
    rintro rfl
    rw [List.mem_singleton.mp hother] at hname
    exact hincluded (h.mem_includedPackages_of_name hname)
  · rw [hnames] at hname
    rcases List.mem_append.mp hname with hname | hname
    · exact h.known name hname
    · rw [List.mem_singleton.mp hname]
      exact hknown

/-- A fix that is offered inserts the import or is refused because of a conflict. -/
theorem fix_of_offered {root : Document} (hroot : m.root = .ok root) (h : k.Offers m p) :
    (∃ conflicting actions,
      p.fix k.graph m = .ok (.conflict p.name conflicting, actions)) ∨
    ∃ actions, p.fix k.graph m = .ok (.inserted (root.importEdit p), actions) := by
  obtain ⟨-, hkernel, hincluded⟩ := h.spec
  rw [Package.fix_of_not_mem_includedPackages hroot hkernel hincluded]
  cases k.graph.conflictingPackage p.name m.includedPackages with
  | none => exact .inr ⟨_, rfl⟩
  | some conflicting => exact .inl ⟨conflicting, _, rfl⟩

/-- A step keeps the invariant. -/
theorem Inv.step (hplain : ∀ p ∈ k.catalogue.packages, p.isKernel = true ∨ p.Plain)
    (h : Inv k steps m) (hstep : FixStep k m p outcome m') :
    Inv k (steps ++ [(p, outcome)]) m' := by
  obtain ⟨hpackages, hkernel, hincluded⟩ := hstep.offered.spec
  obtain ⟨root, actions, hroot, hfix, rfl⟩ := hstep.applied
  rcases fix_of_offered hroot hstep.offered with ⟨conflicting, _, hfix'⟩ | ⟨_, hfix'⟩
  · cases hfix.symm.trans hfix'
    exact h.conflict p.name conflicting
  · cases hfix.symm.trans hfix'
    have hp : p.Plain := (hplain p hpackages).resolve_left (by simp [hkernel])
    exact h.insert hp (Catalogue.mem_importable hpackages hkernel) hincluded hroot

/-- The invariant holds after every run. -/
theorem inv (hplain : ∀ p ∈ k.catalogue.packages, p.isKernel = true ∨ p.Plain) {path : String}
    {text : Text} (hroot : m.root = .ok (.read path text)) (h : FixRun k m steps m') :
    Inv k steps m' := by
  induction h with
  | start => exact .start hroot
  | step _ hstep ih => exact ih.step hplain hstep

/-- Whatever fixes are chosen, runs of them make progress, if the packages of the catalogue are
plain or need no import. No fix of a run finds its package imported already, and every fix that
is offered after the run can be applied and does not either. No report asks for a package that
was inserted. So there are at most as many insertions as there are packages to import. -/
theorem progress (hplain : ∀ p ∈ k.catalogue.packages, p.isKernel = true ∨ p.Plain)
    {path : String} {text : Text} (hroot : m.root = .ok (.read path text))
    (h : FixRun k m steps m') :
    (∀ s ∈ steps, s.2 ≠ .alreadyIncluded) ∧
    (∀ p, k.Offers m' p → ∃ outcome actions,
      p.fix k.graph m' = .ok (outcome, actions) ∧ outcome ≠ .alreadyIncluded) ∧
    (∀ p edit, (p, .inserted edit) ∈ steps → ∀ q, k.Offers m' q → q.name ≠ p.name) ∧
    (insertedNames steps).length ≤ k.catalogue.importable.length := by
  have hinv := inv hplain hroot h
  refine ⟨hinv.useful, fun p hp => ?_, fun p edit hp q hq heq => ?_,
    hinv.nodup.length_le_of_subset hinv.known⟩
  · obtain ⟨path', text', hroot', -⟩ := hinv.lines
    rcases fix_of_offered hroot' hp with ⟨conflicting, actions, hfix⟩ | ⟨actions, hfix⟩
    · exact ⟨_, actions, hfix, FixOutcome.noConfusion⟩
    · exact ⟨_, actions, hfix, FixOutcome.noConfusion⟩
  · exact hq.spec.2.2 (heq ▸ hinv.mem_includedPackages hp)

/-- One fix is offered, in an open group, and when it has been made, it is not offered again. -/
theorem progress_open_group :
    let schema : CommandSchema := ⟨"foo", [], some (.named "a")⟩
    let k : Knowledge := ⟨(CatalogueChange.command schema).apply .empty, .empty⟩
    let m := Manuscript.ofDocuments [.read "a.tex" "\x7b\\foo".toList]
    ∃ steps m', FixRun k m steps m' ∧ insertedNames steps = ["a"] ∧
      ∀ q, k.Offers m' q → q.name ≠ "a" := by
  intro schema k m
  let p := Package.named "a"
  let edit : TextEdit := ⟨0, 0, "\\usepackage\x7ba\x7d\n".toList⟩
  have hanalyze : k.analyze .default m none =
      .ok [⟨.missingCommandImport, 0, ⟨1, 5⟩, [p]⟩] := by decide +kernel
  have hfix : p.fix k.graph m = .ok (.inserted edit, [.insertImport edit]) := by decide +kernel
  have hstep : FixStep k m p (.inserted edit) _ :=
    ⟨⟨.default, none, _, _, hanalyze, List.mem_singleton_self _, List.mem_singleton_self _⟩,
      _, _, rfl, hfix, rfl⟩
  have hpackages : k.catalogue.packages = [p] := by decide +kernel
  have hplain : ∀ q ∈ k.catalogue.packages, q.isKernel = true ∨ q.Plain := by
    intro q hq
    rw [hpackages, List.mem_singleton] at hq
    subst hq
    exact .inr (by decide +kernel)
  obtain ⟨-, -, hnever, -⟩ := progress hplain rfl (.step .start hstep)
  exact ⟨_, _, .step .start hstep, rfl, hnever p edit (by simp)⟩

end FixRun

end TexLint
