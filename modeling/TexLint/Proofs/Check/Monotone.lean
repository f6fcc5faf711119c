import TexLint.Proofs.Check.ImportLine
import TexLint.Proofs.Check.MissingImport

/-!
# More imports, fewer reports

Whatever is added to a manuscript or to the load graph provides more packages, and what is provided
is not reported. So nothing that was satisfied becomes a problem.

## The model

* `LoadGraph.Extends`: a graph has all the direct loads of another one.

## What is proved

* `Lacks.of_extends`: what is lacking still was lacking before.
* `found_sublist`: a check that reports less about each usage gives a part of the reports.
* `Knowledge.analyze_monotone`: adding a document or loads leaves a part of the reports.
-/

namespace TexLint

/-- What a function gives that gives less is a part of what the other one gives. -/
theorem filterMap_sublist {α β : Type} {f g : α → Option β} (l : List α)
    (h : ∀ a ∈ l, ∀ b, f a = some b → g a = some b) : (l.filterMap f).Sublist (l.filterMap g) := by
  induction l with
  | nil => exact List.Sublist.refl _
  | cons a l ih =>
    have ih := ih fun b hb => h b (List.mem_cons_of_mem _ hb)
    rw [List.filterMap_cons, List.filterMap_cons]
    cases hf : f a with
    | none =>
      cases g a with
      | none => exact ih
      | some c => exact ih.cons c
    | some b =>
      rw [h a List.mem_cons_self b hf]
      exact ih.cons_cons b

/-- A graph has all the direct loads of another one. -/
def LoadGraph.Extends (g' g : LoadGraph) : Prop := ∀ a b, g.Loads a b → g'.Loads a b

theorem LoadGraph.extends_apply (g : LoadGraph) (c : LoadChange) : (c.apply g).Extends g := by
  intro a b h
  exact loads_apply.mpr (.inl h)

/-- Where there are more direct loads, more packages are reached. -/
theorem LoadGraph.Extends.reaches {g g' : LoadGraph} (h : g'.Extends g) {l p : String}
    (hpath : g.Reaches l p) : g'.Reaches l p :=
  Relation.TransGen.mono h l p hpath

namespace Knowledge

variable {k k' : Knowledge} {included included' defined defined' : List String}

/-- What is lacking where more is imported and loaded was lacking before. -/
theorem Lacks.of_extends (hgraph : k'.graph.Extends k.graph) (hincluded : included ⊆ included')
    {packages : List Package} (h : k'.Lacks included' packages) : k.Lacks included packages := by
  refine ⟨h.ne_nil, h.not_kernel, ?_, ?_⟩
  · intro p hp hmem
    exact h.not_included p hp (hincluded hmem)
  · intro p hp l hl hpath
    exact h.not_reached p hp l (hincluded hl) (hgraph.reaches hpath)

section Extended

variable (hbuilt : k.graph.Built) (hbuilt' : k'.graph.Built)
  (hcatalogue : k'.catalogue = k.catalogue) (hgraph : k'.graph.Extends k.graph)
  (hincluded : included ⊆ included')

include hbuilt hbuilt' hgraph hincluded in
theorem unsatisfied?_of_extends {packages found : List Package}
    (h : k'.unsatisfied? included' packages = some found) :
    k.unsatisfied? included packages = some found := by
  obtain ⟨hfound, hlacks⟩ := (unsatisfied?_eq_some_iff_lacks hbuilt').mp h
  exact (unsatisfied?_eq_some_iff_lacks hbuilt).mpr ⟨hfound, hlacks.of_extends hgraph hincluded⟩

include hbuilt hbuilt' hcatalogue hgraph hincluded in
/-- A problem with a command was one before. -/
theorem commandProblem?_of_extends {i : Nat} {d : Document} {u : CommandUsage} {x : Problem}
    (h : k'.commandProblem? included' i d u = some x) :
    k.commandProblem? included i d u = some x := by
  rw [commandProblem?] at h ⊢
  by_cases hdefined : d.isBeingDefined u = true
  · rw [if_pos hdefined] at h
    cases h
  · rw [if_neg hdefined] at h ⊢
    rw [hcatalogue] at h
    obtain ⟨packages, hpackages, hx⟩ := Option.map_eq_some_iff.mp h
    have hbefore := unsatisfied?_of_extends hbuilt hbuilt' hgraph hincluded hpackages
    exact Option.map_eq_some_iff.mpr ⟨packages, hbefore, hx⟩

include hbuilt hbuilt' hcatalogue hgraph hincluded in
/-- A problem with an environment was one before. -/
theorem environmentProblem?_of_extends (hdefined : defined ⊆ defined') {i : Nat}
    {e : EnvironmentUsage} {x : Problem}
    (h : k'.environmentProblem? included' defined' i e = some x) :
    k.environmentProblem? included defined i e = some x := by
  rw [environmentProblem?] at h ⊢
  by_cases hmem : e.name ∈ defined'
  · rw [if_pos (List.contains_iff_mem.mpr hmem)] at h
    cases h
  · have hbefore : e.name ∉ defined := fun hmem' => hmem (hdefined hmem')
    rw [if_neg (mt List.contains_iff_mem.mp hmem)] at h
    rw [if_neg (mt List.contains_iff_mem.mp hbefore)]
    rw [hcatalogue] at h
    obtain ⟨packages, hpackages, hx⟩ := Option.map_eq_some_iff.mp h
    have hbefore := unsatisfied?_of_extends hbuilt hbuilt' hgraph hincluded hpackages
    exact Option.map_eq_some_iff.mpr ⟨packages, hbefore, hx⟩

end Extended

end Knowledge

/-! ### The reports as a whole -/

theorem Manuscript.inScope_push (m : Manuscript) (d : Document) (scope : Nat → Bool) :
    (m.push d).inScope scope =
      m.inScope scope ++ if scope m.documents.length then [(m.documents.length, d)] else [] := by
  rw [Manuscript.inScope, Manuscript.inScope, Manuscript.push, List.mapIdx_concat,
    List.filter_append]
  simp [List.filter_cons]

namespace Knowledge

variable {k k' : Knowledge}

section Found

variable {υ : Type} {usages : Document → List υ}
  {problem? problem'? : Nat → Document → υ → Option Problem} {m : Manuscript} {scope : Nat → Bool}

/-- A check that reports less about each usage gives a part of the reports. -/
theorem found_sublist (h : ∀ i d u x, problem'? i d u = some x → problem? i d u = some x) :
    (found m scope usages problem'?).Sublist (found m scope usages problem?) := by
  rw [found, found]
  induction m.inScope scope with
  | nil => exact List.Sublist.refl _
  | cons e documents ih =>
    rw [List.flatMap_cons, List.flatMap_cons]
    exact (filterMap_sublist (usages e.2) fun u _ x hx => h e.1 e.2 u x hx).append ih

/-- The reports on the documents that were there are those of the check on these documents. -/
theorem filter_found_push {kind : ProblemKind} {start : υ → Nat}
    (hat : ∀ i d u x, problem? i d u = some x → x.isAt kind i (start u) = true) (d : Document) :
    (found (m.push d) scope usages problem?).filter (·.document < m.documents.length) =
      found m scope usages problem? := by
  have hkeep : ∀ x ∈ found m scope usages problem?, x.document < m.documents.length := by
    intro x hx
    obtain ⟨i, d, hd, -, u, -, hproblem⟩ := exists_of_mem_found hx
    rw [(Problem.isAt_iff.mp (hat i d u x hproblem)).2.1]
    exact (List.getElem?_eq_some_iff.mp hd).1
  have hdrop : ∀ x ∈ (usages d).filterMap (problem? m.documents.length d),
      ¬ x.document < m.documents.length := by
    intro x hx
    obtain ⟨u, -, hproblem⟩ := List.mem_filterMap.mp hx
    rw [(Problem.isAt_iff.mp (hat _ d u x hproblem)).2.1]
    exact Nat.lt_irrefl _
  have hfound : found (m.push d) scope usages problem? = found m scope usages problem? ++
      if scope m.documents.length then (usages d).filterMap (problem? m.documents.length d)
      else [] := by
    rw [found, Manuscript.inScope_push, List.flatMap_append, ← found]
    split <;> simp
  rw [hfound, List.filter_append, List.filter_eq_self.mpr (by simpa using hkeep),
    List.filter_eq_nil_iff.mpr, List.append_nil]
  split
  · simpa using hdrop
  · simp

end Found

/-- Where no less is imported, loaded and defined, the reports are a part of what they were. -/
theorem problems_sublist (hbuilt : k.graph.Built) (hbuilt' : k'.graph.Built)
    (hcatalogue : k'.catalogue = k.catalogue) (hgraph : k'.graph.Extends k.graph)
    {m m' : Manuscript} (hincluded : m.includedPackages ⊆ m'.includedPackages)
    (hdefined : m.definedEnvironments ⊆ m'.definedEnvironments) (scope : Nat → Bool) :
    (found m scope (·.commands) (k'.commandProblem? m'.includedPackages) ++
      found m scope (·.environments)
        fun i _ => k'.environmentProblem? m'.includedPackages m'.definedEnvironments i).Sublist
      (k.problems m scope) := by
  rw [problems_eq]
  refine List.Sublist.append (found_sublist ?_) (found_sublist ?_)
  · intro i d u x h
    exact commandProblem?_of_extends hbuilt hbuilt' hcatalogue hgraph hincluded h
  · intro i d e x h
    exact environmentProblem?_of_extends hbuilt hbuilt' hcatalogue hgraph hincluded hdefined h

end Knowledge

namespace Manuscript

theorem includedPackages_subset_push (m : Manuscript) (d : Document) :
    m.includedPackages ⊆ (m.push d).includedPackages := by
  intro name hname
  obtain ⟨d', hd', h⟩ := mem_includedPackages_iff.mp hname
  exact mem_includedPackages_iff.mpr ⟨d', List.mem_append_left [d] hd', h⟩

theorem collect_push {α : Type} (m : Manuscript) (d : Document) (f : Document → List α) :
    (m.push d).collect f = m.collect f ++ (f d).map (⟨m.documents.length, ·⟩) := by
  rw [collect, collect, push, List.mapIdx_concat, List.flatten_append, List.flatten_singleton]

theorem definedEnvironments_subset_push (m : Manuscript) (d : Document) :
    m.definedEnvironments ⊆ (m.push d).definedEnvironments := by
  intro name hname
  rw [definedEnvironments, mem_distinct] at hname ⊢
  rw [commands, collect_push, List.filter_append, List.filterMap_append]
  exact List.mem_append_left _ hname

end Manuscript

namespace Knowledge

variable {k : Knowledge} {m : Manuscript}

theorem analyze_of_not_dependencyCheck {settings : Settings} (h : settings.dependencyCheck = false)
    (only : Option Nat) : k.analyze settings m only = .ok [] := by
  rw [analyze, h]
  rfl

theorem analyze_of_dependencyCheck {settings : Settings} (h : settings.dependencyCheck = true)
    (hready : m.indexing = false) (only : Option Nat) :
    k.analyze settings m only = .ok (k.problems m fun i => only.all (· == i)) := by
  rw [analyze, h, Manuscript.ensureReady, hready]
  rfl

/-- Nothing that was satisfied becomes a problem. When a document is added to a manuscript, or
something to the load graph, such as a direct load, then the reports on the documents that were
there before are some of the reports that there were, unchanged and in the same order. -/
theorem analyze_monotone (hgraph : k.graph.Built) (hready : m.indexing = false)
    (settings : Settings) (only : Option Nat) :
    ∃ reports, k.analyze settings m only = .ok reports ∧
      (∀ d, ∃ reports', k.analyze settings (m.push d) only = .ok reports' ∧
        (reports'.filter (·.document < m.documents.length)).Sublist reports) ∧
      ∀ change : LoadChange, ∃ reports',
        (Knowledge.mk k.catalogue (change.apply k.graph)).analyze settings m only = .ok reports' ∧
        reports'.Sublist reports := by
  by_cases hcheck : settings.dependencyCheck = true
  · refine ⟨_, analyze_of_dependencyCheck hcheck hready only, ?_, ?_⟩
    · intro d
      refine ⟨_, analyze_of_dependencyCheck (m := m.push d) hcheck hready only, ?_⟩
      rw [problems_eq, List.filter_append,
        filter_found_push (isAt_of_commandProblem? k _),
        filter_found_push (isAt_of_environmentProblem? k _ _)]
      exact problems_sublist hgraph hgraph rfl (fun _ _ => id) (m.includedPackages_subset_push d)
        (m.definedEnvironments_subset_push d) _
    · intro change
      let k' : Knowledge := ⟨k.catalogue, change.apply k.graph⟩
      have hbuilt' : k'.graph.Built := .change change hgraph
      refine ⟨_, analyze_of_dependencyCheck hcheck hready only, ?_⟩
      rw [problems_eq]
      exact problems_sublist hgraph hbuilt' rfl (k.graph.extends_apply change)
        (List.Subset.refl _) (List.Subset.refl _) _
  · have hcheck : settings.dependencyCheck = false := by simpa using hcheck
    refine ⟨[], analyze_of_not_dependencyCheck hcheck only, ?_, ?_⟩
    · intro d
      exact ⟨[], analyze_of_not_dependencyCheck hcheck only, List.Sublist.refl _⟩
    · intro change
      exact ⟨[], analyze_of_not_dependencyCheck hcheck only, List.Sublist.refl _⟩

/-- The import of `b` in a further document satisfies one of two commands, and the load of the other
package by one that is imported satisfies the other one as well. -/
theorem analyze_monotone_import :
    let foo : CommandSchema := ⟨"foo", [], some (.named "b")⟩
    let bar : CommandSchema := ⟨"bar", [], some (.named "c")⟩
    let catalogue :=
      (CatalogueChange.command bar).apply ((CatalogueChange.command foo).apply .empty)
    let m := Manuscript.ofDocuments [.read "a.tex" "\\usepackage\x7ba\x7d\\foo\\bar".toList]
    let d := Document.read "b.tex" "\\usepackage\x7bb\x7d".toList
    let graph := LoadGraph.empty.addLoad "a" "b"
    ∃ reports pushed loaded, (Knowledge.mk catalogue .empty).analyze .default m none = .ok reports ∧
      (Knowledge.mk catalogue .empty).analyze .default (m.push d) none = .ok pushed ∧
      (Knowledge.mk catalogue graph).analyze .default m none = .ok loaded ∧
      (pushed.filter (·.document < 1)).Sublist reports ∧ loaded.Sublist reports ∧
      reports.map (·.packages) = [[.named "b"], [.named "c"]] ∧
      pushed.map (·.packages) = [[.named "c"]] ∧ loaded.map (·.packages) = [[.named "c"]] := by
  intro foo bar catalogue m d graph
  obtain ⟨reports, hreports, hpush, hload⟩ :=
    analyze_monotone (k := ⟨catalogue, .empty⟩) (m := m) .empty rfl .default none
  obtain ⟨pushed, hpushed, hpush⟩ := hpush d
  obtain ⟨loaded, hloaded, hload⟩ := hload (.load "a" "b")
  have hpackages (k : Knowledge) (m : Manuscript) (reports : List Problem)
      (packages : List (List Package)) (h : k.analyze .default m none = .ok reports)
      (hmap : (k.analyze .default m none).map (·.map (·.packages)) = .ok packages) :
      reports.map (·.packages) = packages := by
    rw [h] at hmap
    exact Except.ok.inj hmap
  refine ⟨reports, pushed, loaded, hreports, hpushed, hloaded, hpush, hload, ?_, ?_, ?_⟩
  · exact hpackages _ _ _ _ hreports (by decide +kernel)
  · exact hpackages _ _ _ _ hpushed (by decide +kernel)
  · exact hpackages _ _ _ _ hloaded (by decide +kernel)

end Knowledge

end TexLint
