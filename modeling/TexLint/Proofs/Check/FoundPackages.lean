import TexLint.Proofs.Check.Monotone
import TexLint.Proofs.Knowledge.IndexOverlay

/-!
# Imports of packages that were found

Where a catalogue has been extended by the index of installed packages, the check for missing
imports takes the first package that lists a new name for the one that provides it.

## What is proved

* `unsatisfied?_eq_none_of_mem`: one package that is satisfied is enough.
* `scope_of_mem_found`, `filter_problems_of_not_scope`: nothing is reported on a document that is
  not in scope.
* `Knowledge.analyze_extendFromIndex`: importing the first package that lists a name, or one that
  loads it, is enough for all usages of the name.
* `Knowledge.analyze_second_listing`: importing another package that lists it is not.
-/

namespace TexLint

namespace Knowledge

variable {k : Knowledge} {m : Manuscript} {scope : Nat → Bool} {included defined : List String}

theorem unsatisfied?_eq_none_of_mem {packages : List Package} {p : Package} (hp : p ∈ packages)
    (h : k.isSatisfied included p = true) : k.unsatisfied? included packages = none := by
  cases hfound : k.unsatisfied? included packages with
  | none => rfl
  | some found =>
    obtain ⟨-, -, -, hnone⟩ := unsatisfied?_eq_some_iff.mp hfound
    rw [hnone p hp] at h
    cases h

theorem scope_of_mem_found {υ : Type} {usages : Document → List υ}
    {problem? : Nat → Document → υ → Option Problem} {kind : ProblemKind} {start : υ → Nat}
    (hat : ∀ i d u x, problem? i d u = some x → x.isAt kind i (start u) = true) {x : Problem}
    (h : x ∈ found m scope usages problem?) : scope x.document = true := by
  obtain ⟨i, d, -, hscope, u, -, hx⟩ := exists_of_mem_found h
  rw [(Problem.isAt_iff.mp (hat i d u x hx)).2.1]
  exact hscope

/-- Nothing is reported on a document that is not in scope. -/
theorem filter_problems_of_not_scope {i : Nat} (hscope : scope i = false) (kind : ProblemKind)
    (place : Nat) : (k.problems m scope).filter (·.isAt kind i place) = [] := by
  refine List.filter_eq_nil_iff.mpr fun x hx hplace => ?_
  have hin : scope x.document = true := by
    rw [problems_eq, List.mem_append] at hx
    rcases hx with hx | hx
    · exact scope_of_mem_found (isAt_of_commandProblem? k m.includedPackages) hx
    · exact scope_of_mem_found
        (isAt_of_environmentProblem? k m.includedPackages m.definedEnvironments) hx
  rw [(Problem.isAt_iff.mp hplace).2.1, hscope] at hin
  cases hin

section Found

variable {c : Catalogue} {index : PackageIndex} {g : LoadGraph} {package : String}

/-- A command that was not known is no problem where the first package that lists it is
satisfied. -/
theorem commandProblem?_of_firstListing {u : CommandUsage}
    (hnew : withoutBackslash u.baseName ∉ c.commands.keys)
    (hlisted : index.firstListing (·.commands) (withoutBackslash u.baseName) = some package)
    (h : isSatisfied ⟨c.extendFromIndex index, g⟩ included (.named package) = true) (i : Nat)
    (d : Document) : commandProblem? ⟨c.extendFromIndex index, g⟩ included i d u = none := by
  have hschemas : (c.extendFromIndex index).commandSchemas u.baseName =
      [Catalogue.foundCommand (withoutBackslash u.baseName) package] := by
    rw [Catalogue.commandSchemas, Catalogue.get?_commands_extendFromIndex,
      OrderedMap.get?_eq_none_iff.mpr hnew, hlisted]
    rfl
  have hmem : Package.named package ∈
      dependencies ((c.extendFromIndex index).commandSchemas u.baseName) := by
    rw [hschemas, dependencies, mem_distinct]
    exact List.mem_singleton.mpr rfl
  have hnone := unsatisfied?_eq_none_of_mem hmem h
  unfold commandProblem?
  split
  · rfl
  · simp only [hnone, Option.map_none]

/-- An environment that was not known is no problem where the first package that lists it is
satisfied. -/
theorem environmentProblem?_of_firstListing {e : EnvironmentUsage}
    (hnew : e.name ∉ c.environments.keys)
    (hlisted : index.firstListing (·.environments) e.name = some package)
    (h : isSatisfied ⟨c.extendFromIndex index, g⟩ included (.named package) = true) (i : Nat) :
    environmentProblem? ⟨c.extendFromIndex index, g⟩ included defined i e = none := by
  have hschema : (c.extendFromIndex index).environment? e.name =
      some (Catalogue.foundEnvironment e.name package) := by
    rw [Catalogue.environment?, Catalogue.get?_environments_extendFromIndex,
      OrderedMap.get?_eq_none_iff.mpr hnew, hlisted]
    rfl
  have hmem : Package.named package ∈
      (((c.extendFromIndex index).environment? e.name).bind (·.dependency)).toList := by
    rw [hschema]
    exact List.mem_singleton.mpr rfl
  have hnone := unsatisfied?_eq_none_of_mem hmem h
  unfold environmentProblem?
  split
  · rfl
  · simp only [hnone, Option.map_none]

/-- After the index of installed packages has been added to a catalogue, the check gives an
answer for every manuscript whose documents have been collected. Let a package be imported, or
loaded by one that is. Then no use of a command is reported that the catalogue did not know before
and that the package lists and none before it in the index; likewise for environments. -/
theorem analyze_extendFromIndex (hready : m.indexing = false)
    (hread : ∀ d ∈ m.documents, ∃ path text, d = Document.read path text) (c : Catalogue)
    (index : PackageIndex) (g : LoadGraph) (settings : Settings) (only : Option Nat) :
    ∃ reports, analyze ⟨c.extendFromIndex index, g⟩ settings m only = .ok reports ∧
      ∀ before package contents behind,
        index.packages.entries = before ++ (package, contents) :: behind →
        package ∈ m.includedPackages ∨ g.isLoadedByAny package m.includedPackages = true →
        ∀ i d, m.documents[i]? = some d →
          (∀ u ∈ d.commands, withoutBackslash u.baseName ∉ c.commands.keys →
            withoutBackslash u.baseName ∈ contents.commands →
            (∀ found ∈ before, withoutBackslash u.baseName ∉ found.2.commands) →
            reports.filter (·.isAt .missingCommandImport i u.span.start) = []) ∧
          ∀ e ∈ d.environments, e.name ∉ c.environments.keys → e.name ∈ contents.environments →
            (∀ found ∈ before, e.name ∉ found.2.environments) →
            reports.filter (·.isAt .missingEnvironmentImport i (e.span.start + beginLength)) =
              [] := by
  by_cases hcheck : settings.dependencyCheck = true
  · refine ⟨_, analyze_of_dependencyCheck hcheck hready only, ?_⟩
    intro before package contents behind hentries hpackage i d hd
    have hsatisfied : isSatisfied ⟨c.extendFromIndex index, g⟩ m.includedPackages
        (.named package) = true := by
      rw [isSatisfied, Bool.or_eq_true, List.contains_iff_mem]
      exact hpackage
    have hfirst {names : PackageContents → List String} {name : String}
        (hlisted : name ∈ names contents) (hbefore : ∀ found ∈ before, name ∉ names found.2) :
        index.firstListing names name = some package :=
      PackageIndex.firstListing_eq_some_iff.mpr
        ⟨before, contents, behind, hentries, hlisted, hbefore⟩
    obtain ⟨path, text, rfl⟩ := hread d (List.mem_of_getElem? hd)
    by_cases hscope : only.all (· == i) = true
    · refine ⟨?_, ?_⟩
      · intro u hu hnew hlisted hbefore
        rw [filter_problems_command hd hscope Document.pairwise_commands hu,
          commandProblem?_of_firstListing hnew (hfirst hlisted hbefore) hsatisfied]
        rfl
      · intro e he hnew hlisted hbefore
        rw [filter_problems_environment hd hscope Document.pairwise_environments he,
          environmentProblem?_of_firstListing hnew (hfirst hlisted hbefore) hsatisfied]
        rfl
    · have hscope : only.all (· == i) = false := Bool.eq_false_iff.mpr hscope
      exact ⟨fun _ _ _ _ _ => filter_problems_of_not_scope hscope _ _,
        fun _ _ _ _ _ => filter_problems_of_not_scope hscope _ _⟩
  · refine ⟨[], analyze_of_not_dependencyCheck (Bool.eq_false_iff.mpr hcheck) only, ?_⟩
    intro _ _ _ _ _ _ _ _ _
    exact ⟨fun _ _ _ _ _ => rfl, fun _ _ _ _ _ => rfl⟩

end Found

/-- An index of two packages that list the same command and environment. -/
def twoListings : PackageIndex :=
  let contents : PackageContents := ⟨["foo"], ["e"], []⟩
  ⟨⟨[("a", contents), ("b", contents)]⟩⟩

/-- Importing the first package is enough. -/
theorem analyze_first_listing :
    let text := "\\usepackage\x7ba\x7d\\foo\\begin\x7be\x7d\\end\x7be\x7d".toList
    let k : Knowledge := ⟨Catalogue.empty.extendFromIndex twoListings, .empty⟩
    ∃ reports, k.analyze .default (.ofDocuments [.read "main.tex" text]) none = .ok reports ∧
      reports.filter (·.isAt .missingCommandImport 0 14) = [] ∧
      reports.filter (·.isAt .missingEnvironmentImport 0 (18 + beginLength)) = [] := by
  intro text k
  let m := Manuscript.ofDocuments [.read "main.tex" text]
  obtain ⟨reports, hanalyze, hlisted⟩ := analyze_extendFromIndex (m := m) rfl
    (by simp [m, Manuscript.ofDocuments]) .empty twoListings .empty .default none
  obtain ⟨hcommands, henvironments⟩ := hlisted [] "a" _ _ rfl (.inl (by decide +kernel)) 0 _ rfl
  refine ⟨reports, hanalyze, ?_, ?_⟩
  · exact hcommands ⟨"\\foo", ⟨14, 18⟩, [], 1⟩ (by decide +kernel) (by decide +kernel)
      (by decide +kernel) (by simp)
  · exact henvironments ⟨"e", ⟨18, 27⟩, ⟨25, 26⟩⟩ (by decide +kernel) (by decide +kernel)
      (by decide +kernel) (by simp)

/-- Importing the second package is not enough, though it lists the command and the environment
too. -/
theorem analyze_second_listing :
    let text := "\\usepackage\x7bb\x7d\\foo\\begin\x7be\x7d\\end\x7be\x7d".toList
    let m := Manuscript.ofDocuments [.read "main.tex" text]
    let k : Knowledge := ⟨Catalogue.empty.extendFromIndex twoListings, .empty⟩
    m.includedPackages = ["b"] ∧
      (∃ contents, twoListings.packages.get? "b" = some contents ∧
        "foo" ∈ contents.commands ∧ "e" ∈ contents.environments) ∧
      k.analyze .default m none = .ok
        [⟨.missingCommandImport, 0, ⟨14, 18⟩, [.named "a"]⟩,
          ⟨.missingEnvironmentImport, 0, ⟨25, 26⟩, [.named "a"]⟩] := by
  intro text m k
  refine ⟨by decide +kernel, ⟨⟨["foo"], ["e"], []⟩, rfl, ?_, ?_⟩, ?_⟩
  · exact List.mem_singleton.mpr rfl
  · exact List.mem_singleton.mpr rfl
  · have hanalyze : k.analyze .default m none = .ok (k.problems m fun _ => true) :=
      analyze_of_dependencyCheck rfl rfl none
    rw [hanalyze]
    exact congrArg Except.ok (by decide +kernel)

end Knowledge

end TexLint
