import TexLint.Proofs.Check.Monotone

/-!
# The order of the reports

A host may ask for the reports on a whole manuscript or on one of its documents. Both answers agree,
since the imports and the environments of all documents count for either, and both are in the order
of the source.

## The model

* `Problem.Before` orders reports by their documents, and in a document by the places where they
  start.

## What is proved

* `filter_document_problems`: the reports on some documents are those of all reports that are on
  them.
* `filter_kind_problems`: the reports of a kind are those on commands or those on environments.
* `pairwise_found`: the problems of usages that start one after the other are in order.
* `Knowledge.analyze_in_order`: the answer for a manuscript and the answers for its documents.
-/

namespace TexLint

/-- A report comes before another one: it is on an earlier document, or on the same one and starts
at an earlier place. -/
def Problem.Before (x y : Problem) : Prop :=
  x.document < y.document ∨ x.document = y.document ∧ x.span.start < y.span.start

/-- Among reports in order there is at most one of a kind at a place. -/
theorem Problem.length_filter_isAt_le_one {reports : List Problem}
    (h : reports.Pairwise Problem.Before) (kind : ProblemKind) (document start : Nat) :
    (reports.filter (·.isAt kind document start)).length ≤ 1 := by
  have hfilter := h.filter (·.isAt kind document start)
  have hplace {x : Problem} (hx : x ∈ reports.filter (·.isAt kind document start)) :
      x.document = document ∧ x.span.start = start :=
    (Problem.isAt_iff.mp (List.mem_filter.mp hx).2).2
  generalize reports.filter (·.isAt kind document start) = found at hfilter hplace ⊢
  match found with
  | [] => exact Nat.zero_le 1
  | [_] => exact Nat.le_refl 1
  | x :: y :: rest =>
    have hbefore : x.Before y := (List.pairwise_cons.mp hfilter).1 y List.mem_cons_self
    obtain ⟨hx, hxstart⟩ := hplace (x := x) (by simp)
    obtain ⟨hy, hystart⟩ := hplace (x := y) (by simp)
    rcases hbefore with hlt | ⟨-, hlt⟩ <;> omega

namespace Knowledge

variable {k : Knowledge} {m : Manuscript}

/-! ### Reports on some usages -/

section Found

variable {υ : Type} {usages : Document → List υ} {problem? : Nat → Document → υ → Option Problem}
  {kind : ProblemKind} {start : υ → Nat}

/-- The problems of the usages in some documents are those of all problems that are on them. -/
theorem filter_document_found
    (hat : ∀ i d u x, problem? i d u = some x → x.isAt kind i (start u) = true)
    (scope : Nat → Bool) :
    (found m (fun _ => true) usages problem?).filter (scope ·.document) =
      found m scope usages problem? := by
  rw [found, found, Manuscript.inScope, Manuscript.inScope, List.filter_true, List.filter_flatMap]
  induction m.documents.mapIdx fun position d => (position, d) with
  | nil => rfl
  | cons e documents ih =>
    have hdocument : ∀ x ∈ (usages e.2).filterMap (problem? e.1 e.2), x.document = e.1 := by
      intro x hx
      obtain ⟨u, -, hproblem⟩ := List.mem_filterMap.mp hx
      exact (Problem.isAt_iff.mp (hat e.1 e.2 u x hproblem)).2.1
    rw [List.flatMap_cons, ih, List.filter_cons]
    cases hscope : scope e.1 with
    | true =>
      have hall : ((usages e.2).filterMap (problem? e.1 e.2)).filter (scope ·.document) =
          (usages e.2).filterMap (problem? e.1 e.2) :=
        List.filter_eq_self.mpr fun x hx => by rw [hdocument x hx, hscope]
      rw [hall, if_pos rfl, List.flatMap_cons]
    | false =>
      have hnone : ((usages e.2).filterMap (problem? e.1 e.2)).filter (scope ·.document) = [] :=
        List.filter_eq_nil_iff.mpr fun x hx => by simp [hdocument x hx, hscope]
      rw [hnone, if_neg Bool.false_ne_true, List.nil_append]

/-- The problems of usages are in order if the usages of each document start one after the other. -/
theorem pairwise_found
    (hat : ∀ i d u x, problem? i d u = some x → x.isAt kind i (start u) = true)
    (hstart : ∀ d ∈ m.documents, (usages d).Pairwise (start · < start ·)) (scope : Nat → Bool) :
    (found m scope usages problem?).Pairwise Problem.Before := by
  have hplace {i : Nat} {d : Document} {u : υ} {x : Problem} (hx : problem? i d u = some x) :
      x.document = i ∧ x.span.start = start u :=
    (Problem.isAt_iff.mp (hat i d u x hx)).2
  refine List.pairwise_flatMap.mpr ⟨?_, ?_⟩
  · intro e he
    have hd : e.2 ∈ m.documents := List.mem_of_getElem? (Manuscript.mem_inScope_iff.mp he).1
    refine List.Pairwise.filterMap _ ?_ (hstart e.2 hd)
    intro u v hlt x hx y hy
    obtain ⟨hxdocument, hxstart⟩ := hplace hx
    obtain ⟨hydocument, hystart⟩ := hplace hy
    exact .inr ⟨hxdocument.trans hydocument.symm, by rwa [hxstart, hystart]⟩
  · refine (m.pairwise_inScope scope).imp ?_
    intro e f hlt x hx y hy
    obtain ⟨u, -, hx⟩ := List.mem_filterMap.mp hx
    obtain ⟨v, -, hy⟩ := List.mem_filterMap.mp hy
    refine .inl ?_
    rwa [(hplace hx).1, (hplace hy).1]

theorem kind_of_mem_found
    (hat : ∀ i d u x, problem? i d u = some x → x.isAt kind i (start u) = true)
    {scope : Nat → Bool} {x : Problem} (h : x ∈ found m scope usages problem?) : x.kind = kind := by
  obtain ⟨i, d, -, -, u, -, hx⟩ := exists_of_mem_found h
  exact (Problem.isAt_iff.mp (hat i d u x hx)).1

end Found

/-! ### All reports -/

/-- The reports on some documents are those of all reports that are on them. -/
theorem filter_document_problems (k : Knowledge) (m : Manuscript) (scope : Nat → Bool) :
    (k.problems m fun _ => true).filter (scope ·.document) = k.problems m scope := by
  rw [problems_eq, problems_eq, List.filter_append,
    filter_document_found (isAt_of_commandProblem? k m.includedPackages),
    filter_document_found
      (isAt_of_environmentProblem? k m.includedPackages m.definedEnvironments)]

/-- The reports of a kind are the problems of the usages of that kind. -/
theorem filter_kind_problems (k : Knowledge) (m : Manuscript) (scope : Nat → Bool) :
    (k.problems m scope).filter (·.kind == .missingCommandImport) =
        found m scope (·.commands) (k.commandProblem? m.includedPackages) ∧
      (k.problems m scope).filter (·.kind == .missingEnvironmentImport) =
        found m scope (·.environments)
          fun i _ => k.environmentProblem? m.includedPackages m.definedEnvironments i := by
  have hcommand {x : Problem}
      (hx : x ∈ found m scope (·.commands) (k.commandProblem? m.includedPackages)) :
      x.kind = .missingCommandImport :=
    kind_of_mem_found (isAt_of_commandProblem? k m.includedPackages) hx
  have henvironment {x : Problem} (hx : x ∈ found m scope (·.environments)
      fun i _ => k.environmentProblem? m.includedPackages m.definedEnvironments i) :
      x.kind = .missingEnvironmentImport :=
    kind_of_mem_found (isAt_of_environmentProblem? k m.includedPackages m.definedEnvironments) hx
  rw [problems_eq, List.filter_append, List.filter_append]
  constructor
  · rw [List.filter_eq_self.mpr fun x hx => by simp [hcommand hx],
      List.filter_eq_nil_iff.mpr fun x hx => by simp [henvironment hx], List.append_nil]
  · rw [List.filter_eq_nil_iff.mpr fun x hx => by simp [hcommand hx],
      List.filter_eq_self.mpr fun x hx => by simp [henvironment hx], List.nil_append]

/-- The reports of a kind are in order. -/
theorem pairwise_problems (hread : ∀ d ∈ m.documents, ∃ path text, d = Document.read path text)
    (k : Knowledge) (scope : Nat → Bool) (kind : ProblemKind) :
    ((k.problems m scope).filter (·.kind == kind)).Pairwise Problem.Before := by
  cases kind with
  | missingCommandImport =>
    rw [(filter_kind_problems k m scope).1]
    refine pairwise_found (isAt_of_commandProblem? k m.includedPackages) ?_ scope
    intro d hd
    obtain ⟨path, text, rfl⟩ := hread d hd
    exact Document.pairwise_commands
  | missingEnvironmentImport =>
    rw [(filter_kind_problems k m scope).2]
    refine pairwise_found
      (isAt_of_environmentProblem? k m.includedPackages m.definedEnvironments) ?_ scope
    intro d hd
    obtain ⟨path, text, rfl⟩ := hread d hd
    exact Document.pairwise_environments.imp fun h => Nat.add_lt_add_right h beginLength

/-- The check for missing imports gives an answer for every manuscript whose documents have been
collected. The answer for one document consists of the reports that are on it, in the same order.
All reports on commands come before those on environments, and the reports of each kind are in the
order of the documents and of the places in them, no two of them at the same place. So no usage is
reported twice. -/
theorem analyze_in_order (hready : m.indexing = false)
    (hread : ∀ d ∈ m.documents, ∃ path text, d = Document.read path text) (k : Knowledge)
    (settings : Settings) :
    ∃ reports, k.analyze settings m none = .ok reports ∧
      (∀ i, k.analyze settings m (some i) = .ok (reports.filter (·.document == i))) ∧
      reports = reports.filter (·.kind == .missingCommandImport) ++
        reports.filter (·.kind == .missingEnvironmentImport) ∧
      (∀ kind, (reports.filter (·.kind == kind)).Pairwise Problem.Before) ∧
      ∀ kind i start, (reports.filter (·.isAt kind i start)).length ≤ 1 := by
  by_cases hcheck : settings.dependencyCheck = true
  · refine ⟨_, analyze_of_dependencyCheck hcheck hready none, ?_, ?_, ?_, ?_⟩
    · intro i
      rw [analyze_of_dependencyCheck hcheck hready (some i)]
      refine congrArg Except.ok ?_
      have hscope : (fun j => (some i).all (· == j)) = fun j => j == i := by
        funext j
        exact Bool.beq_comm
      rw [hscope]
      exact (filter_document_problems k m fun j => j == i).symm
    · rw [(filter_kind_problems k m _).1, (filter_kind_problems k m _).2]
      exact problems_eq k m _
    · exact pairwise_problems hread k _
    · intro kind i start
      have hkind : ∀ x : Problem, x.isAt kind i start =
          (x.isAt kind i start && x.kind == kind) := by
        intro x
        simp only [Problem.isAt]
        cases x.kind == kind <;> simp
      rw [List.filter_congr fun x _ => hkind x, ← List.filter_filter]
      exact Problem.length_filter_isAt_le_one (pairwise_problems hread k _ kind) kind i start
  · have hcheck : settings.dependencyCheck = false := Bool.eq_false_iff.mpr hcheck
    refine ⟨[], analyze_of_not_dependencyCheck hcheck none, ?_, rfl, ?_, ?_⟩
    · intro i
      exact analyze_of_not_dependencyCheck hcheck (some i)
    · intro kind
      exact List.Pairwise.nil
    · intro kind i start
      exact Nat.zero_le 1

/-- Two documents that need the same package for a command, the first one also for an environment
that begins between two uses of the command. -/
theorem analyze_in_order_two :
    let command : CommandSchema := ⟨"foo", [], some (.named "a")⟩
    let environment : EnvironmentSchema := ⟨"e", some (.named "a")⟩
    let k : Knowledge := ⟨(CatalogueChange.environment environment).apply
      ((CatalogueChange.command command).apply .empty), .empty⟩
    let m := Manuscript.ofDocuments
      [.read "a.tex" "\\foo\\begin\x7be\x7d\\foo\\end\x7be\x7d".toList,
        .read "b.tex" "\\foo".toList]
    let place (x : Problem) := (x.document, x.span.start)
    ∃ reports, k.analyze .default m none = .ok reports ∧
      k.analyze .default m (some 1) = .ok (reports.filter (·.document == 1)) ∧
      (reports.filter (·.kind == .missingCommandImport)).Pairwise Problem.Before ∧
      reports.map place = [(0, 0), (0, 13), (1, 0), (0, 11)] := by
  intro command environment k m place
  obtain ⟨reports, hanalyze, hdocument, -, hpairwise, -⟩ :=
    analyze_in_order (m := m) rfl (by simp [m, Manuscript.ofDocuments]) k .default
  have hplaces : (k.analyze .default m none).map (·.map place) =
      .ok [(0, 0), (0, 13), (1, 0), (0, 11)] := by decide +kernel
  rw [hanalyze] at hplaces
  exact ⟨reports, hanalyze, hdocument 1, hpairwise _, Except.ok.inj hplaces⟩

end Knowledge

end TexLint
