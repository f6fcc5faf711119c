import TexLint.Check.MissingImport
import TexLint.Proofs.Document.Usages
import TexLint.Proofs.Knowledge.LoadClosure
import TexLint.Proofs.Knowledge.Schemas

/-!
# What the check for missing imports reports

The problems that the check finds are those of the usages that lack a package, one for each of
them, and none else.

## The model

* `Knowledge.Lacks` says when the packages of which one is needed are all missing: in terms of
  the imports and of paths in the load graph.
* `Document.DefinedBefore` says that a command is the one that the usage just before it
  defines.
* `Problem.isAt` says at which usage a problem is; `ReportedIff` says that there is one problem
  at a place under a condition, and none otherwise.

## What is proved

* `unsatisfied?_eq_some_iff_lacks`: what the check takes for unsatisfied is what is lacking.
* `filter_problems_command`, `filter_problems_environment`: what is reported at a usage is its
  own problem.
* `slice?_nameSpan`: the place of a report is that of the command's name without its star.
* `Knowledge.analyze_exact`: the reports of the check as a whole.
-/

namespace TexLint

/-! ### Lists in order -/

/-- What elements with different keys give is told apart by the keys. -/
theorem filter_flatMap_of_pairwise {α β : Type} {key : α → Nat} {l : List α}
    (hl : l.Pairwise (key · < key ·)) {a : α} (ha : a ∈ l) {g : α → List β} {q : β → Bool}
    (hq : ∀ b ∈ l, ∀ x ∈ g b, q x = true → key b = key a) :
    (l.flatMap g).filter q = (g a).filter q := by
  have hnone {b : α} (hb : b ∈ l) (hkey : key b ≠ key a) : (g b).filter q = [] :=
    List.filter_eq_nil_iff.mpr fun x hx hqx => hkey (hq b hb x hx hqx)
  obtain ⟨before, behind, rfl⟩ := List.append_of_mem ha
  obtain ⟨-, hbehind, hbefore⟩ := List.pairwise_append.mp hl
  rw [List.filter_flatMap, List.flatMap_append, List.flatMap_cons]
  have h₁ : before.flatMap (fun b => (g b).filter q) = [] :=
    List.flatMap_eq_nil_iff.mpr fun b hb =>
      hnone (by simp [hb]) (Nat.ne_of_lt (hbefore b hb a List.mem_cons_self))
  have h₂ : behind.flatMap (fun b => (g b).filter q) = [] :=
    List.flatMap_eq_nil_iff.mpr fun b hb =>
      hnone (by simp [hb]) (Nat.ne_of_gt ((List.pairwise_cons.mp hbehind).1 b hb))
  rw [h₁, h₂, List.nil_append, List.append_nil]

/-! ### What is lacking -/

namespace Knowledge

/-- One of the packages is needed, and neither is one of them provided without an import, nor
imported, nor loaded by an imported one. -/
structure Lacks (k : Knowledge) (included : List String) (packages : List Package) : Prop where
  /-- There is a package that is needed. -/
  ne_nil : packages ≠ []
  /-- No schema says that none is needed. -/
  not_kernel : ∀ p ∈ packages, p.isKernel = false
  /-- None of them is imported. -/
  not_included : ∀ p ∈ packages, p.name ∉ included
  /-- No loads lead to one of them from an imported package. -/
  not_reached : ∀ p ∈ packages, ∀ l ∈ included, ¬ k.graph.Reaches l p.name

variable {k : Knowledge} {included : List String}

theorem unsatisfied?_eq_some_iff {packages found : List Package} :
    k.unsatisfied? included packages = some found ↔ found = packages ∧ packages ≠ [] ∧
      (∀ p ∈ packages, p.isKernel = false) ∧
      ∀ p ∈ packages, k.isSatisfied included p = false := by
  rw [unsatisfied?]
  split
  · next h =>
    simp only [Bool.or_eq_true, List.isEmpty_iff, List.any_eq_true] at h
    refine ⟨fun h => (by cases h), fun ⟨_, hne, hkernel, hsatisfied⟩ => ?_⟩
    rcases h with (h | ⟨p, hp, h⟩) | ⟨p, hp, h⟩
    · exact absurd h hne
    · rw [hkernel p hp] at h
      cases h
    · rw [hsatisfied p hp] at h
      cases h
  · next h =>
    simp only [Bool.or_eq_true, List.isEmpty_iff, List.any_eq_true, not_or, not_exists, not_and,
      Bool.not_eq_true] at h
    rw [Option.some_inj, eq_comm]
    exact ⟨fun heq => ⟨heq, h.1.1, h.1.2, h.2⟩, And.left⟩

theorem isSatisfied_eq_false_iff (h : k.graph.Built) {p : Package} :
    k.isSatisfied included p = false ↔
      p.name ∉ included ∧ ∀ l ∈ included, ¬ k.graph.Reaches l p.name := by
  have hloaded : k.graph.isLoadedByAny p.name included = false ↔
      ¬ ∃ l ∈ included, l ≠ p.name ∧ k.graph.Reaches l p.name := by
    rw [← LoadGraph.isLoadedByAny_iff h.inSync, Bool.not_eq_true]
  rw [isSatisfied, Bool.or_eq_false_iff, hloaded, List.contains_eq_mem, decide_eq_false_iff_not]
  refine and_congr_right fun hincluded => ?_
  simp only [not_exists, not_and]
  refine forall₂_congr fun l hl => ⟨fun h => h ?_, fun h _ => h⟩
  rintro rfl
  exact hincluded hl

/-- What the check takes for unsatisfied is what is lacking. -/
theorem unsatisfied?_eq_some_iff_lacks (h : k.graph.Built) {packages found : List Package} :
    k.unsatisfied? included packages = some found ↔
      found = packages ∧ k.Lacks included packages := by
  rw [unsatisfied?_eq_some_iff]
  simp only [isSatisfied_eq_false_iff h]
  refine and_congr_right fun _ => ⟨fun ⟨hne, hkernel, hsatisfied⟩ => ?_, fun h => ?_⟩
  · exact ⟨hne, hkernel, fun p hp => (hsatisfied p hp).1, fun p hp => (hsatisfied p hp).2⟩
  · exact ⟨h.ne_nil, h.not_kernel, fun p hp => ⟨h.not_included p hp, h.not_reached p hp⟩⟩

/-- What is lacking does not depend on how often a package is named. -/
theorem lacks_distinct_iff {packages : List Package} :
    k.Lacks included (distinct packages) ↔ k.Lacks included packages := by
  have hne : distinct packages ≠ [] ↔ packages ≠ [] := by
    simp only [ne_eq, List.eq_nil_iff_forall_not_mem, mem_distinct]
  constructor
  · rintro ⟨h₁, h₂, h₃, h₄⟩
    simp only [mem_distinct] at h₂ h₃ h₄
    exact ⟨hne.mp h₁, h₂, h₃, h₄⟩
  · rintro ⟨h₁, h₂, h₃, h₄⟩
    refine ⟨hne.mpr h₁, ?_, ?_, ?_⟩ <;> simpa only [mem_distinct]

end Knowledge

/-! ### Commands that are being defined -/

namespace Document

/-- The command at a position is the one that the usage just before it defines. -/
def DefinedBefore (d : Document) (j : Nat) (u : CommandUsage) : Prop :=
  ∃ i v definition, j = i + 1 ∧ d.commands[i]? = some v ∧ d.definition? v = some definition ∧
    definition.defines u = true

theorem isBeingDefined_iff {path : String} {text : Text} {j : Nat} {u : CommandUsage}
    (h : (read path text).commands[j]? = some u) :
    (read path text).isBeingDefined u = true ↔ (read path text).DefinedBefore j u := by
  rw [isBeingDefined, previous?, CommandUsage.previousIndex, index_of_command h]
  cases j with
  | zero => simp [DefinedBefore]
  | succ i =>
    simp only [Nat.add_one_ne_zero, if_false, Nat.add_sub_cancel, Option.bind_some,
      Option.any_eq_true, Option.bind_eq_some_iff]
    constructor
    · rintro ⟨definition, ⟨v, hv, hdefinition⟩, hdefines⟩
      exact ⟨i, v, definition, rfl, hv, hdefinition, hdefines⟩
    · rintro ⟨_, v, definition, heq, hv, hdefinition, hdefines⟩
      obtain rfl := Nat.succ.inj heq
      exact ⟨definition, ⟨v, hv, hdefinition⟩, hdefines⟩

end Document

/-! ### Places -/

/-- Whether a problem is of the given kind and at the given place. -/
def Problem.isAt (x : Problem) (kind : ProblemKind) (document start : Nat) : Bool :=
  x.kind == kind && x.document == document && x.span.start == start

theorem Problem.isAt_iff {x : Problem} {kind : ProblemKind} {document start : Nat} :
    x.isAt kind document start = true ↔
      x.kind = kind ∧ x.document = document ∧ x.span.start = start := by
  simp [Problem.isAt, and_assoc]

/-- A name begins with what is left of it without its star. -/
theorem exists_unstarred (name : String) : ∃ star,
    name.toList = (unstarred name).toList ++ star ∧
      ((unstarred name).toList = [] → name.toList = []) := by
  rw [unstarred]
  split
  · next h =>
    obtain ⟨start, hstart⟩ := List.getLast?_eq_some_iff.mp h.1
    refine ⟨['*'], by simp [hstart], fun hnil => ?_⟩
    rw [String.toList_ofList] at hnil
    simp [hnil] at h
  · exact ⟨[], by simp, id⟩

/-- A name that begins with a backslash does so without its star too. -/
theorem exists_unstarred_backslash {name : String} (h : ∃ rest, name.toList = '\\' :: rest) :
    ∃ rest, (unstarred name).toList = '\\' :: rest := by
  obtain ⟨rest, hrest⟩ := h
  obtain ⟨star, hstar, hempty⟩ := exists_unstarred name
  cases hname : (unstarred name).toList with
  | nil =>
    rw [hempty hname] at hrest
    cases hrest
  | cons c tail =>
    rw [hrest, hname] at hstar
    exact ⟨tail, by rw [(List.cons.inj hstar).1]⟩

namespace Knowledge

variable {k : Knowledge} {path : String} {text : Text} {j : Nat} {u : CommandUsage}

/-- The place of a report is that of the command's name without its star. -/
theorem slice?_nameSpan (h : k.catalogue.Built)
    (hu : (Document.read path text).commands[j]? = some u)
    (hne : k.catalogue.commandSchemas u.baseName ≠ []) :
    slice? text (nameSpan (k.catalogue.commandSchemas u.baseName) u) =
      some u.baseName.toList := by
  obtain ⟨before, behind, htext, hstart, hbackslash⟩ := Document.exists_text_of_command hu
  obtain ⟨star, hstar, -⟩ := exists_unstarred u.name
  obtain ⟨rest, hrest⟩ := exists_unstarred_backslash hbackslash
  have hcommand : ∀ s ∈ k.catalogue.commandSchemas u.baseName, s.command = String.ofList rest := by
    intro s hs
    rw [h.command_eq hs, withoutBackslash, CommandUsage.baseName, hrest]
    rfl
  have hspan : nameSpan (k.catalogue.commandSchemas u.baseName) u =
      .ofLength (byteLength before) (byteLength u.baseName.toList) := by
    have hlengths : (k.catalogue.commandSchemas u.baseName).map
        (fun s => byteLength s.command.toList) =
          List.replicate (k.catalogue.commandSchemas u.baseName).length (byteLength rest) := by
      refine List.eq_replicate_iff.mpr ⟨List.length_map _, fun n hn => ?_⟩
      obtain ⟨s, hs, rfl⟩ := List.mem_map.mp hn
      rw [hcommand s hs, String.toList_ofList]
    have hlength : byteLength u.baseName.toList = byteLength rest + 1 := by
      rw [CommandUsage.baseName, hrest, byteLength_cons, Nat.add_comm]
      rfl
    simp only [nameSpan, hlengths, hstart, hlength]
    rw [List.min?_replicate_of_pos (List.length_pos_iff.mpr hne)]
    rfl
  rw [hspan, htext, hstar, List.append_assoc before, List.append_assoc _ star,
    ← List.append_assoc before]
  exact slice?_append _ _ _

end Knowledge

/-! ### Reports at one place -/

namespace Manuscript

/-- The documents that the check looks at, with their positions. -/
def inScope (m : Manuscript) (scope : Nat → Bool) : List (Nat × Document) :=
  (m.documents.mapIdx fun position d => (position, d)).filter (scope ·.1)

theorem mem_inScope_iff {m : Manuscript} {scope : Nat → Bool} {i : Nat} {d : Document} :
    (i, d) ∈ m.inScope scope ↔ m.documents[i]? = some d ∧ scope i = true := by
  simp only [inScope, List.mem_filter, List.mem_mapIdx, List.getElem?_eq_some_iff]
  refine and_congr_left fun _ => ⟨?_, ?_⟩
  · rintro ⟨j, hj, heq⟩
    cases heq
    exact ⟨hj, rfl⟩
  · rintro ⟨hi, rfl⟩
    exact ⟨i, hi, rfl⟩

theorem pairwise_inScope (m : Manuscript) (scope : Nat → Bool) :
    (m.inScope scope).Pairwise (·.1 < ·.1) := by
  refine List.Pairwise.filter _ ?_
  rw [List.pairwise_iff_getElem]
  intro i j hi hj hij
  simpa using hij

end Manuscript

namespace Knowledge

variable {k : Knowledge} {m : Manuscript} {scope : Nat → Bool} {i : Nat} {d : Document}
  {included defined : List String}

theorem isAt_of_commandProblem? (k : Knowledge) (included : List String) (i : Nat) (d : Document)
    (u : CommandUsage) (x : Problem) (h : k.commandProblem? included i d u = some x) :
    x.isAt .missingCommandImport i u.span.start = true := by
  rw [commandProblem?] at h
  split at h
  · cases h
  · obtain ⟨packages, -, rfl⟩ := Option.map_eq_some_iff.mp h
    simp [Problem.isAt, nameSpan, Span.ofLength]

theorem isAt_of_environmentProblem? (k : Knowledge) (included defined : List String) (i : Nat)
    (_ : Document) (e : EnvironmentUsage) (x : Problem)
    (h : k.environmentProblem? included defined i e = some x) :
    x.isAt .missingEnvironmentImport i (e.span.start + beginLength) = true := by
  rw [environmentProblem?] at h
  split at h
  · cases h
  · obtain ⟨packages, -, rfl⟩ := Option.map_eq_some_iff.mp h
    simp [Problem.isAt, Span.ofLength]

section Found

variable {υ : Type} {usages : Document → List υ} {problem? : Nat → Document → υ → Option Problem}
  {kind : ProblemKind} {start : υ → Nat}

/-- The problems of the usages in the documents in scope. -/
def found (m : Manuscript) (scope : Nat → Bool) (usages : Document → List υ)
    (problem? : Nat → Document → υ → Option Problem) : List Problem :=
  (m.inScope scope).flatMap fun e => (usages e.2).filterMap (problem? e.1 e.2)

theorem exists_of_mem_found {x : Problem} (h : x ∈ found m scope usages problem?) :
    ∃ i d, m.documents[i]? = some d ∧ scope i = true ∧ ∃ u ∈ usages d, problem? i d u = some x := by
  obtain ⟨e, he, hx⟩ := List.mem_flatMap.mp h
  obtain ⟨u, hu, hx⟩ := List.mem_filterMap.mp hx
  obtain ⟨hd, hscope⟩ := Manuscript.mem_inScope_iff.mp he
  exact ⟨e.1, e.2, hd, hscope, u, hu, hx⟩

/-- Problems of usages with different starts are told apart by their places. -/
theorem filter_found (hat : ∀ i d u x, problem? i d u = some x → x.isAt kind i (start u) = true)
    (hd : m.documents[i]? = some d) (hscope : scope i = true)
    (hstart : (usages d).Pairwise (start · < start ·)) {u : υ} (hu : u ∈ usages d) :
    (found m scope usages problem?).filter (·.isAt kind i (start u)) =
      (problem? i d u).toList := by
  rw [found, filter_flatMap_of_pairwise (m.pairwise_inScope scope)
      (Manuscript.mem_inScope_iff.mpr ⟨hd, hscope⟩),
    List.filterMap_eq_flatMap_toList, filter_flatMap_of_pairwise hstart hu]
  · cases hx : problem? i d u with
    | none => rfl
    | some x => simp [hat i d u x hx]
  · intro w _ x hx hplace
    have hw := (Problem.isAt_iff.mp (hat i d w x (Option.mem_toList.mp hx))).2.2
    exact hw.symm.trans (Problem.isAt_iff.mp hplace).2.2
  · intro e _ x hx hplace
    obtain ⟨w, -, hx⟩ := List.mem_filterMap.mp hx
    have he := (Problem.isAt_iff.mp (hat e.1 e.2 w x hx)).2.1
    exact he.symm.trans (Problem.isAt_iff.mp hplace).2.1

/-- Problems of usages are of their kind only. -/
theorem filter_found_of_ne
    (hat : ∀ i d u x, problem? i d u = some x → x.isAt kind i (start u) = true)
    {kind' : ProblemKind} (hne : kind' ≠ kind) (place : Nat) :
    (found m scope usages problem?).filter (·.isAt kind' i place) = [] := by
  refine List.filter_eq_nil_iff.mpr fun x hx hplace => hne ?_
  obtain ⟨i, d, -, -, u, -, hx⟩ := exists_of_mem_found hx
  exact (Problem.isAt_iff.mp hplace).1.symm.trans (Problem.isAt_iff.mp (hat i d u x hx)).1

end Found

theorem problems_eq (k : Knowledge) (m : Manuscript) (scope : Nat → Bool) : k.problems m scope =
    found m scope (·.commands) (k.commandProblem? m.includedPackages) ++
      found m scope (·.environments)
        fun i _ => k.environmentProblem? m.includedPackages m.definedEnvironments i := rfl

/-- What is reported at a command is its own problem. -/
theorem filter_problems_command (hd : m.documents[i]? = some d) (hscope : scope i = true)
    (hstart : d.commands.Pairwise (·.span.start < ·.span.start)) {u : CommandUsage}
    (hu : u ∈ d.commands) :
    (k.problems m scope).filter (·.isAt .missingCommandImport i u.span.start) =
      (k.commandProblem? m.includedPackages i d u).toList := by
  rw [problems_eq, List.filter_append,
    filter_found (isAt_of_commandProblem? k m.includedPackages) hd hscope hstart hu,
    filter_found_of_ne (isAt_of_environmentProblem? k m.includedPackages m.definedEnvironments)
      (by decide),
    List.append_nil]

/-- What is reported at an environment is its own problem. -/
theorem filter_problems_environment (hd : m.documents[i]? = some d) (hscope : scope i = true)
    (hstart : d.environments.Pairwise (·.span.start < ·.span.start)) {e : EnvironmentUsage}
    (he : e ∈ d.environments) :
    (k.problems m scope).filter
        (·.isAt .missingEnvironmentImport i (e.span.start + beginLength)) =
      (k.environmentProblem? m.includedPackages m.definedEnvironments i e).toList := by
  rw [problems_eq, List.filter_append,
    filter_found_of_ne (isAt_of_commandProblem? k m.includedPackages) (by decide),
    filter_found (isAt_of_environmentProblem? k m.includedPackages m.definedEnvironments) hd hscope
      (hstart.imp fun h => Nat.add_lt_add_right h beginLength) he,
    List.nil_append]

/-! ### The reports -/

/-- The packages that the schemas of a command name, as often as they do. -/
def neededPackages (schemas : List CommandSchema) : List Package := schemas.filterMap (·.dependency)

/-- A command is no mere definition, and the packages that provide it are lacking. -/
def CommandLacks (k : Knowledge) (m : Manuscript) (d : Document) (j : Nat) (u : CommandUsage) :
    Prop :=
  ¬ d.DefinedBefore j u ∧
    k.Lacks m.includedPackages (neededPackages (k.catalogue.commandSchemas u.baseName))

/-- An environment is not defined in the manuscript, and the given package, which provides it,
is lacking. -/
def EnvironmentLacks (k : Knowledge) (m : Manuscript) (e : EnvironmentUsage) (p : Package) :
    Prop :=
  e.name ∉ m.definedEnvironments ∧
    (∃ schema, k.catalogue.environment? e.name = some schema ∧ schema.dependency = some p) ∧
    k.Lacks m.includedPackages [p]

/-- The problem of a command that lacks its packages. -/
def commandReport (k : Knowledge) (i : Nat) (u : CommandUsage) : Problem :=
  let schemas := k.catalogue.commandSchemas u.baseName
  ⟨.missingCommandImport, i, nameSpan schemas u, dependencies schemas⟩

theorem commandProblem?_eq_some_iff (hgraph : k.graph.Built) {path : String} {text : Text}
    {j : Nat} {u : CommandUsage} (hu : (Document.read path text).commands[j]? = some u)
    {x : Problem} :
    k.commandProblem? m.includedPackages i (.read path text) u = some x ↔
      x = k.commandReport i u ∧ k.CommandLacks m (.read path text) j u := by
  rw [commandProblem?, CommandLacks, ← Document.isBeingDefined_iff hu]
  split
  · next hdefined => simp [hdefined]
  · next hdefined =>
    simp only [hdefined, Bool.false_eq_true, not_false_eq_true, true_and, Option.map_eq_some_iff,
      unsatisfied?_eq_some_iff_lacks hgraph]
    have hdistinct (schemas : List CommandSchema) :
        k.Lacks m.includedPackages (dependencies schemas) ↔
          k.Lacks m.includedPackages (neededPackages schemas) := lacks_distinct_iff
    rw [← hdistinct]
    constructor
    · rintro ⟨packages, ⟨rfl, hlacks⟩, rfl⟩
      exact ⟨rfl, hlacks⟩
    · rintro ⟨rfl, hlacks⟩
      exact ⟨_, ⟨rfl, hlacks⟩, rfl⟩

/-- The problem of an environment that lacks its package. -/
def environmentReport (i : Nat) (e : EnvironmentUsage) (p : Package) : Problem :=
  ⟨.missingEnvironmentImport, i,
    .ofLength (e.span.start + beginLength) (byteLength e.name.toList), [p]⟩

theorem environmentProblem?_eq_some_iff (hgraph : k.graph.Built) {e : EnvironmentUsage}
    {x : Problem} :
    k.environmentProblem? m.includedPackages m.definedEnvironments i e = some x ↔
      ∃ p, x = environmentReport i e p ∧ k.EnvironmentLacks m e p := by
  rw [environmentProblem?]
  split
  · next hdefined =>
    have hmem : e.name ∈ m.definedEnvironments := List.contains_iff_mem.mp hdefined
    simp [EnvironmentLacks, hmem]
  · next hdefined =>
    have hmem : e.name ∉ m.definedEnvironments := fun h => hdefined (List.contains_iff_mem.mpr h)
    simp only [EnvironmentLacks, hmem, not_false_eq_true, true_and, Option.map_eq_some_iff,
      unsatisfied?_eq_some_iff_lacks hgraph, ← Option.bind_eq_some_iff]
    cases (k.catalogue.environment? e.name).bind (·.dependency) with
    | none =>
      refine ⟨fun ⟨_, ⟨_, hlacks⟩, _⟩ => absurd rfl hlacks.ne_nil, fun ⟨p, _, hp, _⟩ => ?_⟩
      cases hp
    | some p =>
      constructor
      · rintro ⟨_, ⟨rfl, hlacks⟩, rfl⟩
        exact ⟨p, rfl, rfl, hlacks⟩
      · rintro ⟨_, rfl, hp, hlacks⟩
        cases hp
        exact ⟨_, ⟨rfl, hlacks⟩, rfl⟩

/-- There is one report about a place if a condition holds, which is as described, and none
otherwise. -/
def ReportedIff (reports : List Problem) (kind : ProblemKind) (document start : Nat)
    (condition : Prop) (described : Problem → Prop) : Prop :=
  (condition → ∃ report, reports.filter (·.isAt kind document start) = [report] ∧
    described report) ∧
  (¬ condition → reports.filter (·.isAt kind document start) = [])

theorem reportedIff_of_filter {reports : List Problem} {kind : ProblemKind} {document start : Nat}
    {problem? : Option Problem} {condition : Prop} {described : Problem → Prop}
    (hfilter : reports.filter (·.isAt kind document start) = problem?.toList)
    (hsome : condition → ∃ x, problem? = some x)
    (hdescribed : ∀ x, problem? = some x → condition ∧ described x) :
    ReportedIff reports kind document start condition described := by
  rw [ReportedIff, hfilter]
  constructor
  · intro h
    obtain ⟨x, rfl⟩ := hsome h
    exact ⟨x, rfl, (hdescribed x rfl).2⟩
  · intro h
    cases problem? with
    | none => rfl
    | some x => exact absurd (hdescribed x rfl).1 h

/-- The check for missing imports gives an answer for every manuscript whose documents have
been collected. The usages in each document in scope stand at different places. There is one
report about a command if it lacks its packages, and none otherwise. The report stands at the
name of the command without its star, and it offers the packages that the schemas of the command
name, in their order and each once. Likewise there is one report about an environment, which
offers its package, if it lacks that package, and none otherwise. There are no other reports. -/
theorem analyze_exact (hcatalogue : k.catalogue.Built) (hgraph : k.graph.Built)
    (hready : m.indexing = false)
    (hread : ∀ d ∈ m.documents, ∃ path text, d = Document.read path text) {settings : Settings}
    (hcheck : settings.dependencyCheck = true) (only : Option Nat) :
    ∃ reports, k.analyze settings m only = .ok reports ∧
      (∀ i d, m.documents[i]? = some d → (∀ position ∈ only, position = i) →
        d.commands.Pairwise (·.span.start < ·.span.start) ∧
        d.environments.Pairwise (·.span.start < ·.span.start) ∧
        (∀ j u, d.commands[j]? = some u →
          ReportedIff reports .missingCommandImport i u.span.start (k.CommandLacks m d j u)
            fun report =>
              slice? d.text report.span = some u.baseName.toList ∧
              report.packages = distinct (neededPackages (k.catalogue.commandSchemas u.baseName)) ∧
              report.packages.Nodup) ∧
        ∀ e ∈ d.environments,
          ReportedIff reports .missingEnvironmentImport i (e.span.start + beginLength)
            (∃ p, k.EnvironmentLacks m e p)
            fun report => ∃ p, k.EnvironmentLacks m e p ∧ report.packages = [p]) ∧
      ∀ report ∈ reports, ∃ i d, m.documents[i]? = some d ∧ (∀ position ∈ only, position = i) ∧
        ((∃ u ∈ d.commands, report.isAt .missingCommandImport i u.span.start = true) ∨
          ∃ e ∈ d.environments,
            report.isAt .missingEnvironmentImport i (e.span.start + beginLength) = true) := by
  have hscope (i : Nat) : only.all (· == i) = true ↔ ∀ position ∈ only, position = i := by
    cases only <;> simp
  refine ⟨k.problems m fun i => only.all (· == i), ?_, ?_, ?_⟩
  · simp [analyze, hcheck, Manuscript.ensureReady, hready, bind, Except.bind, pure, Except.pure]
  · intro i d hd honly
    obtain ⟨path, text, rfl⟩ := hread d (List.mem_of_getElem? hd)
    have hin := (hscope i).mpr honly
    refine ⟨Document.pairwise_commands, Document.pairwise_environments, fun j u hu => ?_,
      fun e he => ?_⟩
    · have hiff (x : Problem) := commandProblem?_eq_some_iff (m := m) (i := i) (x := x) hgraph hu
      refine reportedIff_of_filter (filter_problems_command hd hin Document.pairwise_commands
        (List.mem_of_getElem? hu)) (fun h => ⟨_, (hiff _).mpr ⟨rfl, h⟩⟩) fun x hx => ?_
      obtain ⟨rfl, hlacks⟩ := (hiff x).mp hx
      refine ⟨hlacks, slice?_nameSpan hcatalogue hu ?_, rfl, nodup_distinct _⟩
      intro hnil
      exact hlacks.2.ne_nil (by rw [hnil]; rfl)
    · refine reportedIff_of_filter (filter_problems_environment hd hin
        Document.pairwise_environments he) (fun ⟨p, hp⟩ =>
          ⟨_, (environmentProblem?_eq_some_iff hgraph).mpr ⟨p, rfl, hp⟩⟩) fun x hx => ?_
      obtain ⟨p, rfl, hp⟩ := (environmentProblem?_eq_some_iff hgraph).mp hx
      exact ⟨⟨p, hp⟩, p, hp, rfl⟩
  · intro report hreport
    rw [problems_eq, List.mem_append] at hreport
    rcases hreport with h | h
    · obtain ⟨i, d, hd, hin, u, hu, hx⟩ := exists_of_mem_found h
      exact ⟨i, d, hd, (hscope i).mp hin, .inl ⟨u, hu, isAt_of_commandProblem? _ _ _ _ _ _ hx⟩⟩
    · obtain ⟨i, d, hd, hin, e, he, hx⟩ := exists_of_mem_found h
      exact ⟨i, d, hd, (hscope i).mp hin,
        .inr ⟨e, he, isAt_of_environmentProblem? _ _ _ _ d _ _ hx⟩⟩

/-- A starred command whose package is neither imported nor loaded is reported without its
star. -/
theorem analyze_exact_star :
    let schema : CommandSchema := ⟨"foo", [], some (.named "a")⟩
    let k : Knowledge :=
      ⟨(CatalogueChange.command schema).apply .empty, LoadGraph.empty.addLoad "b" "c"⟩
    let text := "\\usepackage\x7bb\x7d\\foo*".toList
    ∃ reports, k.analyze .default (.ofDocuments [.read "a.tex" text]) none = .ok reports ∧
      ∃ report, reports.filter (·.isAt .missingCommandImport 0 14) = [report] ∧
        slice? text report.span = some "\\foo".toList ∧ report.packages = [.named "a"] := by
  intro schema k text
  let m := Manuscript.ofDocuments [.read "a.tex" text]
  let u : CommandUsage := ⟨"\\foo*", ⟨14, 19⟩, [], 1⟩
  have hu : (Document.read "a.tex" text).commands[1]? = some u := by decide +kernel
  have hincluded : m.includedPackages = ["b"] := by decide +kernel
  have hneeded : neededPackages (k.catalogue.commandSchemas u.baseName) = [.named "a"] := by
    decide +kernel
  have hlacks : k.CommandLacks m (.read "a.tex" text) 1 u := by
    refine ⟨(Document.isBeingDefined_iff hu).not.mp (by decide +kernel), ?_⟩
    rw [hneeded, hincluded]
    refine ⟨by decide, by decide, by decide, fun p hp l _ hpath => ?_⟩
    obtain rfl := List.mem_singleton.mp hp
    obtain ⟨b, -, hload⟩ := Relation.TransGen.tail'_iff.mp hpath
    rcases LoadGraph.loads_addLoad.mp hload with hload | hload
    · cases hload
    · have hac : "a" = "c" := congrArg Prod.snd hload
      exact absurd hac (by decide)
  obtain ⟨reports, hanalyze, hplaces, -⟩ :=
    analyze_exact (k := k) (m := m) (.change (.command schema) .empty)
      (.change (.load "b" "c") .empty) rfl (by simp [m, Manuscript.ofDocuments]) rfl none
  obtain ⟨report, hreport, hslice, hpackages, -⟩ :=
    ((hplaces 0 _ rfl (by simp)).2.2.1 1 u hu).1 hlacks
  refine ⟨reports, hanalyze, report, hreport, hslice.trans (by decide +kernel), ?_⟩
  rw [hpackages, hneeded]
  decide

end Knowledge

end TexLint
