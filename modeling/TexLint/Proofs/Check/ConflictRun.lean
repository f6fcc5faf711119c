import TexLint.Proofs.Check.FixRun
import TexLint.Proofs.Check.ImportedNames

/-!
# Fixes and conflicts

A fix is refused if an included package excludes the one to import. What the fix looks at is what
is included before its edit, and what has to be free of conflicts is what is included when the text
with the edit has been read.

## The model

* `Manuscript.ConflictFree`: of no group of packages that exclude each other, two are included.
* `Fixes` is any number of fixes, one after the other, each of a package without options. After an
  insertion the root document is read anew.
* `Fixes.Inv` is what holds throughout: no conflict is there, and no import goes on behind a
  backslash that takes the line end behind which the next line goes.

## What is proved

* `Fixes.Inv.step`, `Fixes.inv`: each fix keeps the invariant, so that it holds after any number.
* `Fixes.conflictFree`: fixes create no conflict, and one that is refused says with which included
  package and changes nothing.
* `Fixes.not_conflictFree_of_escape`: where an import goes on behind such a backslash, a fix can
  create a conflict.
-/

namespace TexLint

namespace LoadGraph

variable {graph : LoadGraph} {package conflicting : String} {included : List String}

/-- A package that is said to exclude another one is included, and a group has both. -/
theorem of_conflictingPackage_eq_some
    (h : graph.conflictingPackage package included = some conflicting) :
    conflicting ∈ included ∧ conflicting ≠ package ∧
      ∃ group ∈ graph.conflicts, package ∈ group ∧ conflicting ∈ group := by
  have hincluded := List.find?_some h
  obtain ⟨hmem, hne⟩ := List.mem_filter.mp (List.mem_of_find?_eq_some h)
  obtain ⟨group, hgroup, hconflicting⟩ := List.mem_flatten.mp hmem
  obtain ⟨hgroup, hpackage⟩ := List.mem_filter.mp hgroup
  exact ⟨by simpa using hincluded, by simpa using hne, group, hgroup, by simpa using hpackage,
    hconflicting⟩

/-- If no package is said to exclude one, then each included one that shares a group with it is the
same. -/
theorem of_conflictingPackage_eq_none (h : graph.conflictingPackage package included = none)
    {group : List String} (hgroup : group ∈ graph.conflicts) (hpackage : package ∈ group)
    {other : String} (hother : other ∈ group) (hincluded : other ∈ included) : other = package := by
  by_contra hne
  refine List.find?_eq_none.mp h other ?_ (by simpa using hincluded)
  refine List.mem_filter.mpr ⟨List.mem_flatten.mpr ⟨group, ?_, hother⟩, by simpa using hne⟩
  exact List.mem_filter.mpr ⟨hgroup, by simpa using hpackage⟩

/-- The packages that exclude others have names of plain characters. -/
def PlainConflicts (graph : LoadGraph) : Prop :=
  ∀ group ∈ graph.conflicts, ∀ name ∈ group, ∀ c ∈ name.toList, isPlainChar c = true

instance : DecidablePred PlainConflicts := fun graph =>
  decidable_of_iff (graph.conflicts.all (·.all (·.toList.all isPlainChar)) = true)
    (by simp only [PlainConflicts, List.all_eq_true])

end LoadGraph

namespace Manuscript

variable {m : Manuscript}

/-- Of no group of packages that exclude each other, two are included. -/
def ConflictFree (m : Manuscript) (graph : LoadGraph) : Prop :=
  ∀ group ∈ graph.conflicts, ∀ x ∈ group, ∀ y ∈ group,
    x ∈ m.includedPackages → y ∈ m.includedPackages → x = y

instance (m : Manuscript) (graph : LoadGraph) : Decidable (m.ConflictFree graph) :=
  inferInstanceAs (Decidable (∀ group ∈ graph.conflicts, ∀ x ∈ group, ∀ y ∈ group, _ → _ → x = y))

/-- What a manuscript includes when its root document has been replaced. -/
theorem mem_includedPackages_replace {root root' : Document} (hroot : m.root = .ok root)
    {name : String} (h : name ∈ (m.replace 0 root').includedPackages) :
    root'.Imports name ∨ name ∈ m.includedPackages := by
  obtain ⟨d, hd, himports⟩ := mem_includedPackages_iff.mp h
  obtain ⟨i, hi⟩ := List.mem_iff_getElem?.mp hd
  cases i with
  | zero =>
    obtain rfl := eq_root_of_getElem? (root_replace hroot root') hi
    exact .inl himports
  | succ i =>
    have hi : (m.documents.set 0 root')[i + 1]? = some d := hi
    rw [List.getElem?_set_ne (Nat.succ_ne_zero i).symm] at hi
    exact .inr (mem_includedPackages_iff.mpr ⟨d, List.mem_of_getElem? hi, himports⟩)

end Manuscript

/-- One fix that is applied, with what comes of it. -/
structure AppliedFix (graph : LoadGraph) (m : Manuscript) (p : Package) (outcome : FixOutcome)
    (m' : Manuscript) : Prop where
  /-- The name of the package has plain characters. -/
  plain : ∀ c ∈ p.name.toList, isPlainChar c = true
  /-- The package is imported without options. -/
  options : p.options = []
  /-- The fix is applied, and the root document is read anew if its text changes. -/
  applied : ∃ root actions, m.root = .ok root ∧ p.fix graph m = .ok (outcome, actions) ∧
    m' = m.afterFix root outcome

/-- Any number of fixes, one after the other. -/
inductive Fixes (graph : LoadGraph) (m : Manuscript) : Manuscript → Prop where
  /-- Nothing has been done. -/
  | start : Fixes graph m m
  /-- One more fix is applied. -/
  | step {m' m'' : Manuscript} {p : Package} {outcome : FixOutcome} : Fixes graph m m' →
      AppliedFix graph m' p outcome m'' → Fixes graph m m''

namespace Fixes

variable {graph : LoadGraph} {m m' : Manuscript} {p : Package} {outcome : FixOutcome}

/-- What holds throughout: the root document has been read from a text in which no import goes on
behind a backslash that takes the line end behind which the next line goes, and there is no
conflict. -/
structure Inv (graph : LoadGraph) (m : Manuscript) : Prop where
  /-- The root document has been read from a text. -/
  root : ∃ path text, m.root = .ok (.read path text) ∧ (Document.read path text).ClosedAtEscape
  /-- There is no conflict. -/
  free : m.ConflictFree graph

/-- A fix that finds no conflict creates none. -/
theorem Inv.insert (hgraph : graph.PlainConflicts) (h : Inv graph m) (hp : p.Plain)
    (hoptions : p.options = []) {root : Document} (hroot : m.root = .ok root)
    (hnone : graph.conflictingPackage p.name m.includedPackages = none) :
    Inv graph (m.afterFix root (.inserted (root.importEdit p))) := by
  obtain ⟨path, text, hread, hclosed⟩ := h.root
  cases hroot.symm.trans hread
  let root' := Document.read path (((Document.read path text).importEdit p).apply text)
  have hafter : m.afterFix (.read path text) (.inserted ((Document.read path text).importEdit p)) =
      m.replace 0 root' := by
    rw [Manuscript.afterFix, Document.document_importEdit]
    rfl
  rw [hafter]
  -- The names of a group that are included now are that of the package and those that were before.
  have hincluded {group : List String} (hgroup : group ∈ graph.conflicts) {name : String}
      (hname : name ∈ group) (hmem : name ∈ (m.replace 0 root').includedPackages) :
      name = p.name ∨ name ∈ m.includedPackages := by
    have hbackslash : '\\' ∉ name.toList := fun hmem =>
      ne_of_isPlainChar (hgraph group hgroup name hname _ hmem) (by decide) rfl
    rcases Manuscript.mem_includedPackages_replace hroot hmem with himports | hmem
    · refine (Document.imports_of_importEdit hp hoptions hclosed hbackslash himports).imp_right ?_
      rintro ⟨u, hu, hname⟩
      exact Manuscript.mem_includedPackages_iff.mpr
        ⟨_, Manuscript.mem_documents_of_root hroot, u, hu, hname⟩
    · exact .inr hmem
  have hconflict {group : List String} (hgroup : group ∈ graph.conflicts)
      (hpackage : p.name ∈ group) {name : String} (hname : name ∈ group)
      (hmem : name ∈ m.includedPackages) : name = p.name :=
    LoadGraph.of_conflictingPackage_eq_none hnone hgroup hpackage hname hmem
  refine ⟨⟨path, _, Manuscript.root_replace hroot root', Document.closedAtEscape_importEdit hp⟩,
    fun group hgroup x hx y hy hxm hym => ?_⟩
  rcases hincluded hgroup hx hxm with rfl | hxm <;> rcases hincluded hgroup hy hym with rfl | hym
  · rfl
  · exact (hconflict hgroup hx hy hym).symm
  · exact hconflict hgroup hy hx hxm
  · exact h.free group hgroup x hx y hy hxm hym

/-- Each fix keeps the invariant. -/
theorem Inv.step (hgraph : graph.PlainConflicts) (h : Inv graph m)
    (hstep : AppliedFix graph m p outcome m') : Inv graph m' := by
  obtain ⟨root, actions, hroot, hfix, rfl⟩ := hstep.applied
  obtain ⟨_, hroot', ⟨-, rfl, -⟩ | ⟨_, -, rfl, -⟩ | ⟨hkernel, hnone, rfl, -⟩⟩ :=
    Package.fix_cases hfix
  · exact h
  · exact h
  · cases hroot.symm.trans hroot'
    have hp : p.Plain :=
      ⟨⟨by simpa [Package.isKernel] using hkernel, hstep.plain⟩, by simp [hstep.options]⟩
    exact h.insert hgraph hp hstep.options hroot hnone

/-- The invariant holds after any number of fixes. -/
theorem inv (hgraph : graph.PlainConflicts) (h : Inv graph m) (hfixes : Fixes graph m m') :
    Inv graph m' := by
  induction hfixes with
  | start => exact h
  | step _ hstep ih => exact ih.step hgraph hstep

/-- Fixes never create a listed conflict, if no import of the root document goes on behind a
backslash that takes the line end where the first line goes. After any number of fixes no two
included packages exclude each other. A fix that is refused then has the user told once and makes no
edit; it names an included package that shares a group with the refused one, and it leaves the
included packages as they are. -/
theorem conflictFree (hgraph : graph.PlainConflicts) {path : String} {text : Text}
    (hroot : m.root = .ok (.read path text)) (hclosed : (Document.read path text).ClosedAtEscape)
    (hfree : m.ConflictFree graph) (h : Fixes graph m m') :
    m'.ConflictFree graph ∧
      ∀ (p : Package) (package conflicting : String) (actions : List HostAction),
        p.fix graph m' = .ok (.conflict package conflicting, actions) →
          package = p.name ∧ actions = [conflictAdvisory p.name] ∧
            conflicting ∈ m'.includedPackages ∧ conflicting ≠ p.name ∧
            (∃ group ∈ graph.conflicts, p.name ∈ group ∧ conflicting ∈ group) ∧
            ∀ root, m'.root = .ok root →
              (m'.afterFix root (.conflict package conflicting)).includedPackages =
                m'.includedPackages := by
  refine ⟨(inv hgraph ⟨⟨path, text, hroot, hclosed⟩, hfree⟩ h).free,
    fun p package conflicting actions hfix => ?_⟩
  obtain ⟨_, -, ⟨-, hcase, -⟩ | ⟨_, hconflict, hcase, hactions⟩ | ⟨-, -, hcase, -⟩⟩ :=
    Package.fix_cases hfix
  · cases hcase
  · cases hcase
    obtain ⟨hincluded, hne, hgroup⟩ := LoadGraph.of_conflictingPackage_eq_some hconflict
    exact ⟨rfl, hactions, hincluded, hne, hgroup, fun _ _ => rfl⟩
  · cases hcase

/-- Behind an import that has ended, a backslash may take the line end. One package is imported, and
another one, which an included package excludes, is refused. -/
theorem conflictFree_behind_escape :
    let graph := LoadGraph.empty.addConflict ["a", "x"]
    let m := Manuscript.ofDocuments [.read "a.tex" "\\usepackage\x7ba\x7d\\\n[z]".toList]
    ∃ m', Fixes graph m m' ∧ m'.includedPackages = ["a", "b"] ∧ m'.ConflictFree graph ∧
      (Package.named "x").fix graph m' = .ok (.conflict "x" "a", [conflictAdvisory "x"]) := by
  intro graph m
  let edit : TextEdit := ⟨0, 16, "\\usepackage\x7bb\x7d\n".toList⟩
  have hfix : (Package.named "b").fix graph m = .ok (.inserted edit, [.insertImport edit]) := by
    decide +kernel
  have hfixes : Fixes graph m _ :=
    .step .start ⟨List.all_eq_true.mp (by decide), rfl, _, _, rfl, hfix, rfl⟩
  have hfree := conflictFree (by decide +kernel) rfl (by decide +kernel) (by decide +kernel) hfixes
  exact ⟨_, hfixes, by decide +kernel, hfree.1, by decide +kernel⟩

/-- The brackets of an import are open here, and what stands behind the backslash belongs to the
latter. With the line in between, the bracket closes those of the import, and the group names its
package, which excludes an included one. -/
theorem not_conflictFree_of_escape :
    let graph := LoadGraph.empty.addConflict ["a", "x"]
    let m := Manuscript.ofDocuments
      [.read "main.tex" "\\usepackage[\\usepackage\x7ba\x7d\\\n[z]\x7bx\x7d".toList]
    graph.PlainConflicts ∧ m.ConflictFree graph ∧ m.includedPackages = ["a"] ∧
      ∃ m', Fixes graph m m' ∧ m'.includedPackages = ["x", "a", "b"] ∧ ¬ m'.ConflictFree graph := by
  intro graph m
  let edit : TextEdit := ⟨0, 28, "\\usepackage\x7bb\x7d\n".toList⟩
  have hfix : (Package.named "b").fix graph m = .ok (.inserted edit, [.insertImport edit]) := by
    decide +kernel
  have hfixes : Fixes graph m _ :=
    .step .start ⟨List.all_eq_true.mp (by decide), rfl, _, _, rfl, hfix, rfl⟩
  exact ⟨by decide +kernel, by decide +kernel, by decide +kernel, _, hfixes, by decide +kernel,
    by decide +kernel⟩

end Fixes

end TexLint
